/-
`resource_list` as it is in memory.

The resources are cells that are linked by pointers; a PUT puts a cell in front or writes
to one, a DELETE links around one.  On memory in which the list is well formed the calls
do what they do on the list of resources, and leave it well formed: `checkDynamicResource_sim`.
-/
import ChordDht.Lib.Chain
import ChordDht.Tcp.MessageHandler

namespace ChordDht.Tcp.Linked

open Chain Outcome

/-- The globals, with the cells that are allocated. -/
structure Globals where
  cells : Memory DynamicResource
  resourceList : Option Nat
  body : Bytes
  fits : body.length < bodySize

/-- What a pointer that is not null points to. -/
def Globals.deref (g : Globals) (ptr : Nat) : Outcome (Cell DynamicResource) :=
  match g.cells ptr with
  | some cell => .returns cell
  | none => .faults

def Globals.store (g : Globals) (ptr : Nat) (cell : Option (Cell DynamicResource)) : Globals :=
  { g with cells := Function.update g.cells ptr cell }

theorem fits_take (bytes : Bytes) : (bytes.take (bodySize - 1)).length < bodySize :=
  Nat.lt_of_le_of_lt (List.length_take_le _ _) (by decide)

theorem fits_nil : ([] : Bytes).length < bodySize := by decide

/-- Copy to `body` as much as leaves room for the zero byte. -/
def Globals.setBody (g : Globals) (bytes : Bytes) : Globals where
  cells := g.cells
  resourceList := g.resourceList
  body := bytes.take (bodySize - 1)
  fits := fits_take bytes

/-- The loop of all three calls: `prev` and `curr` when the name is found. -/
def seek (g : Globals) (filename : Bytes) : Nat → Option Nat → Option Nat → Outcome (Option (Option Nat × Nat))
  | _, _, none => .returns none
  | 0, _, some _ => .diverges
  | fuel + 1, prev, some curr => do
      let cell ← g.deref curr
      if cell.value.filename = filename then return some (prev, curr)
      else seek g filename fuel (some curr) cell.next

def getDynamicRessource (fuel : Nat) (g : Globals) (uri : Bytes) : Outcome (Nat × Globals) :=
  if strncmp uri dynamicPrefix 9 = false then .returns (404, g)
  else
    let filename := uri.drop 9
    if filename = [] then .returns (404, g)
    else do
      match ← seek g filename fuel none g.resourceList with
      | none => return (404, g)
      | some (_, curr) =>
          let cell ← g.deref curr
          return (200, g.setBody cell.value.content)

/-- The cell at `curr` is taken out of the list and freed. -/
def remove (g : Globals) (prev : Option Nat) (curr : Nat) : Outcome Globals := do
  let cell ← g.deref curr
  match prev with
  | none => return ({ g with resourceList := cell.next } : Globals).store curr none
  | some prev =>
      let before ← g.deref prev
      return (g.store prev (some { before with next := cell.next })).store curr none

/-- The branch of a PUT; `malloc` returns `new`. -/
def put (fuel new : Nat) (g : Globals) (filename : Bytes) : Outcome (Nat × Globals) := do
  match ← seek g filename fuel none g.resourceList with
  | some (_, curr) =>
      let cell ← g.deref curr
      return (204, g.store curr (some { cell with value := { cell.value with content := cstr g.body } }))
  | none =>
      let g := g.store new (some ⟨⟨filename, cstr g.body⟩, g.resourceList⟩)
      return (201, { g with resourceList := some new })

/-- The branch of a DELETE. -/
def delete (fuel : Nat) (g : Globals) (filename : Bytes) : Outcome (Nat × Globals) := do
  match ← seek g filename fuel none g.resourceList with
  | some (prev, curr) =>
      let g ← remove g prev curr
      return (204, g)
  | none => return (404, g)

def checkDynamicResource (fuel new : Nat) (g : Globals) (uri : Bytes) (code : Nat) : Outcome (Nat × Globals) :=
  if strncmp uri dynamicPrefix 9 = false then .returns (403, g)
  else
    let filename := uri.drop 9
    if code = 1001 then
      if filename = [] then .returns (404, g) else put fuel new g filename
    else if code = 1002 then
      if filename = [] then .returns (404, g) else delete fuel g filename
    else .returns (404, g)

/-- The cells in memory are the list of resources. -/
def Represents (g : Globals) (server : Server) : Prop :=
  ∃ cells, Linked g.cells g.resourceList cells none ∧ Apart cells ∧
    cells.map Prod.snd = server.resourceList ∧ g.body = server.body

/-! ### The loop -/

/-- The list in front of the first resource of a name, that resource, and the list behind it. -/
structure Split (cells : List (Nat × DynamicResource)) (filename : Bytes) (front : List (Nat × DynamicResource))
    (ptr : Nat) (resource : DynamicResource) (back : List (Nat × DynamicResource)) : Prop where
  eq : cells = front ++ (ptr, resource) :: back
  name : resource.filename = filename
  first : ∀ cell ∈ front, cell.2.filename ≠ filename

theorem deref_of {g : Globals} {ptr : Nat} {cell : Cell DynamicResource} (h : g.cells ptr = some cell) :
    g.deref ptr = .returns cell := by
  rw [Globals.deref, h]

/-- **The loop stops** at the first resource of the name, with the one before it. -/
theorem seek_spec (g : Globals) (filename : Bytes) : ∀ {cells : List (Nat × DynamicResource)} {fuel : Nat}
    {prev head : Option Nat}, Linked g.cells head cells none → cells.length ≤ fuel →
      (∃ front ptr resource back, Split cells filename front ptr resource back ∧
        seek g filename fuel prev head = .returns (some ((front.getLast?.map Prod.fst).or prev, ptr))) ∨
      (∀ cell ∈ cells, cell.2.filename ≠ filename) ∧ seek g filename fuel prev head = .returns none := by
  intro cells
  induction cells with
  | nil =>
      intro fuel prev head hlinked _
      refine Or.inr ⟨fun cell hcell => absurd hcell List.not_mem_nil, ?_⟩
      rw [show head = none from hlinked, seek]
  | cons cell cells ih =>
      intro fuel prev head hlinked hfuel
      obtain ⟨rfl, next, hcell, hrest⟩ := hlinked
      obtain ⟨fuel, rfl⟩ : ∃ k, fuel = k + 1 := ⟨fuel - 1, by rw [List.length_cons] at hfuel; omega⟩
      have hstep : seek g filename (fuel + 1) prev (some cell.1) =
          if cell.2.filename = filename then .returns (some (prev, cell.1))
          else seek g filename fuel (some cell.1) next := by
        rw [seek, deref_of hcell]
        rfl
      by_cases hname : cell.2.filename = filename
      · refine Or.inl ⟨[], cell.1, cell.2, cells, ⟨rfl, hname, fun c hc => absurd hc List.not_mem_nil⟩, ?_⟩
        rw [hstep, if_pos hname]
        rfl
      · rw [hstep, if_neg hname]
        rcases @ih fuel (some cell.1) next hrest (Nat.le_of_succ_le_succ hfuel) with
          ⟨front, ptr, resource, back, hsplit, hseek⟩ | ⟨hnone, hseek⟩
        · refine Or.inl ⟨cell :: front, ptr, resource, back, ⟨?_, hsplit.name, ?_⟩, ?_⟩
          · rw [hsplit.eq]
            rfl
          · intro c hc
            rcases List.mem_cons.mp hc with rfl | hc
            · exact hname
            · exact hsplit.first c hc
          · rw [hseek]
            cases front with
            | nil => rfl
            | cons c front => simp [List.getLast?_cons]
        · refine Or.inr ⟨?_, hseek⟩
          intro c hc
          rcases List.mem_cons.mp hc with rfl | hc
          · exact hname
          · exact hnone c hc

/-! ### The list of resources at that place -/

section Place

variable {cells front back : List (Nat × DynamicResource)} {filename : Bytes} {ptr : Nat}
  {resource : DynamicResource}

theorem Split.resources (h : Split cells filename front ptr resource back) :
    cells.map Prod.snd = front.map Prod.snd ++ resource :: back.map Prod.snd := by
  rw [h.eq, List.map_append, List.map_cons]

theorem Split.firsts (h : Split cells filename front ptr resource back) :
    ∀ r ∈ front.map Prod.snd, ¬ (r.filename == filename) = true := by
  intro r hr
  obtain ⟨cell, hcell, rfl⟩ := List.mem_map.mp hr
  simpa using h.first cell hcell

theorem Split.any (h : Split cells filename front ptr resource back) :
    (cells.map Prod.snd).any (·.filename == filename) = true := by
  rw [h.resources, List.any_append, List.any_cons, beq_iff_eq.mpr h.name]
  simp

theorem replaceContent_append (content : Bytes) {front : List DynamicResource} {resource : DynamicResource}
    (hfront : ∀ r ∈ front, ¬ (r.filename == filename) = true) (hname : resource.filename = filename)
    (back : List DynamicResource) : replaceContent filename content (front ++ resource :: back)
      = front ++ { resource with content := content } :: back := by
  induction front with
  | nil => rw [List.nil_append, replaceContent, if_pos hname, List.nil_append]
  | cons r front ih =>
      have hr : ¬ r.filename = filename := by simpa using hfront r (List.mem_cons_self ..)
      rw [List.cons_append, replaceContent, if_neg hr, ih fun q hq => hfront q (List.mem_cons_of_mem _ hq),
        List.cons_append]

theorem any_none (h : ∀ cell ∈ cells, cell.2.filename ≠ filename) :
    (cells.map Prod.snd).any (·.filename == filename) = false := by
  rw [List.any_eq_false]
  intro r hr
  obtain ⟨cell, hcell, rfl⟩ := List.mem_map.mp hr
  simpa using h cell hcell

theorem Split.cell (h : Split cells filename front ptr resource back) {memory : Memory DynamicResource}
    {head : Option Nat} (hlinked : Linked memory head cells none) : ∃ next, memory ptr = some ⟨resource, next⟩ := by
  rw [h.eq] at hlinked
  obtain ⟨-, -, -, next, hcell, -⟩ := linked_append.mp hlinked
  exact ⟨next, hcell⟩

end Place

/-! ### The calls -/

/-- **Taking a cell out** at the front, inside and at the end of the list. -/
theorem remove_linked {g : Globals} {front back : List (Nat × DynamicResource)} {ptr : Nat}
    {resource : DynamicResource} (hlinked : Linked g.cells g.resourceList (front ++ (ptr, resource) :: back) none)
    (hapart : Apart (front ++ (ptr, resource) :: back)) :
    ∃ g', remove g ((front.getLast?.map Prod.fst).or none) ptr = .returns g' ∧
      Linked g'.cells g'.resourceList (front ++ back) none ∧ Apart (front ++ back) ∧ g'.body = g.body := by
  obtain ⟨middle, hfront, hmiddle, next, hcell, hback⟩ := linked_append.mp hlinked
  rcases List.eq_nil_or_concat front with rfl | ⟨init, ⟨prev, before⟩, rfl⟩
  · obtain ⟨hnext, hapart'⟩ := linked_tail hapart hcell hlinked
    refine ⟨({ g with resourceList := next } : Globals).store ptr none, ?_, hnext, hapart', rfl⟩
    rw [remove, deref_of hcell]
    rfl
  · rw [List.concat_eq_append] at hlinked hapart hfront ⊢
    rw [List.append_assoc, List.singleton_append] at hlinked hapart
    obtain ⟨-, -, -, link, hprev, -⟩ := linked_append.mp hfront
    obtain ⟨hbypass, hapart'⟩ := linked_bypass hapart hcell hlinked
    rw [List.append_assoc, List.singleton_append]
    refine ⟨(g.store prev (some ⟨before, next⟩)).store ptr none, ?_, hbypass, hapart', rfl⟩
    rw [remove, deref_of hcell, returns_bind, List.getLast?_concat, Option.map_some, Option.some_or]
    simp only [deref_of hprev, returns_bind]
    rfl

section Calls

variable {g : Globals} {server : Server} (h : Represents g server) {fuel : Nat}
  (hfuel : server.resourceList.length ≤ fuel)

include h hfuel

/-- **GET in memory** is GET on the list. -/
theorem getDynamicRessource_sim (uri : Bytes) :
    ∃ g', getDynamicRessource fuel g uri = .returns ((Tcp.getDynamicRessource server uri).1, g') ∧
      Represents g' (Tcp.getDynamicRessource server uri).2 := by
  unfold getDynamicRessource Tcp.getDynamicRessource
  by_cases hdyn : strncmp uri dynamicPrefix 9 = false
  · rw [if_pos hdyn, if_pos hdyn]
    exact ⟨g, rfl, h⟩
  · rw [if_neg hdyn, if_neg hdyn]
    generalize uri.drop 9 = filename
    simp only
    by_cases hempty : filename = []
    · rw [if_pos hempty, if_pos hempty]
      exact ⟨g, rfl, h⟩
    · rw [if_neg hempty, if_neg hempty]
      obtain ⟨cells, hlinked, hapart, hlist, hbody⟩ := h
      have hlen : cells.length ≤ fuel := by rwa [← hlist, List.length_map] at hfuel
      rw [← hlist]
      rcases @seek_spec g filename cells fuel none g.resourceList hlinked hlen with
        ⟨front, ptr, resource, back, hsplit, hseek⟩ | ⟨hnone, hseek⟩
      · have hfind : (cells.map Prod.snd).find? (·.filename == filename) = some resource := by
          rw [hsplit.resources, List.find?_append, List.find?_eq_none.mpr hsplit.firsts, Option.none_or,
            List.find?_cons_of_pos (by simpa using hsplit.name)]
        obtain ⟨next, hcell⟩ := hsplit.cell hlinked
        rw [hseek, returns_bind, hfind]
        simp only [deref_of hcell, returns_bind]
        exact ⟨_, rfl, cells, hlinked, hapart, hlist, rfl⟩
      · have hfind : (cells.map Prod.snd).find? (·.filename == filename) = none := by
          rw [List.find?_eq_none]
          intro r hr
          simpa using List.any_eq_false.mp (any_none hnone) r hr
        rw [hseek, returns_bind, hfind]
        exact ⟨g, rfl, cells, hlinked, hapart, hlist, hbody⟩

/-- A PUT writes to the cell of the name, or puts one in front. -/
theorem put_sim {new : Nat} (hnew : g.cells new = none) (filename : Bytes) :
    let result := if server.resourceList.any (·.filename == filename) then
        (204, server.setResources (replaceContent filename (cstr server.body) server.resourceList))
      else (201, server.setResources (⟨filename, cstr server.body⟩ :: server.resourceList))
    ∃ g', put fuel new g filename = .returns (result.1, g') ∧ Represents g' result.2 := by
  obtain ⟨cells, hlinked, hapart, hlist, hbody⟩ := h
  have hlen : cells.length ≤ fuel := by rwa [← hlist, List.length_map] at hfuel
  intro result
  rw [put]
  unfold result
  rw [← hlist, ← hbody]
  rcases @seek_spec g filename cells fuel none g.resourceList hlinked hlen with
    ⟨front, ptr, resource, back, hsplit, hseek⟩ | ⟨hnone, hseek⟩
  · obtain ⟨next, hcell⟩ := hsplit.cell hlinked
    rw [hseek, returns_bind, hsplit.any, if_pos rfl]
    simp only [deref_of hcell, returns_bind]
    rw [hsplit.eq] at hlinked hapart
    obtain ⟨hwrite, hapart'⟩ := @linked_write _ _ _ _ _ _ _ _ _ { resource with content := cstr g.body }
      hapart hcell hlinked
    refine ⟨_, rfl, _, hwrite, hapart', ?_, hbody⟩
    show _ = replaceContent filename (cstr g.body) (cells.map Prod.snd)
    rw [hsplit.resources, replaceContent_append _ hsplit.firsts hsplit.name, List.map_append, List.map_cons]
  · rw [hseek, returns_bind, any_none hnone, if_neg Bool.false_ne_true]
    obtain ⟨hpush, hapart'⟩ := @linked_push _ _ _ _ _ _ ⟨filename, cstr g.body⟩ hnew hapart hlinked
    exact ⟨_, rfl, _, hpush, hapart', rfl, hbody⟩

/-- A DELETE takes the cell of the name out of the list. -/
theorem delete_sim (filename : Bytes) :
    let result := if server.resourceList.any (·.filename == filename) then
        (204, server.setResources (server.resourceList.eraseP (·.filename == filename)))
      else (404, server)
    ∃ g', delete fuel g filename = .returns (result.1, g') ∧ Represents g' result.2 := by
  obtain ⟨cells, hlinked, hapart, hlist, hbody⟩ := h
  have hlen : cells.length ≤ fuel := by rwa [← hlist, List.length_map] at hfuel
  intro result
  rw [delete]
  unfold result
  rw [← hlist]
  rcases @seek_spec g filename cells fuel none g.resourceList hlinked hlen with
    ⟨front, ptr, resource, back, hsplit, hseek⟩ | ⟨hnone, hseek⟩
  · rw [hseek, returns_bind, hsplit.any, if_pos rfl]
    have hlinked' := hlinked
    have hapart' := hapart
    rw [hsplit.eq] at hlinked' hapart'
    obtain ⟨g', hremove, hlinked', hapart', hbody'⟩ := remove_linked hlinked' hapart'
    simp only [hremove, returns_bind]
    refine ⟨g', rfl, _, hlinked', hapart', ?_, hbody'.trans hbody⟩
    show _ = (cells.map Prod.snd).eraseP (·.filename == filename)
    rw [hsplit.resources, List.eraseP_append_right _ hsplit.firsts,
      List.eraseP_cons_of_pos (by simpa using hsplit.name), List.map_append]
  · rw [hseek, returns_bind, any_none hnone, if_neg Bool.false_ne_true]
    exact ⟨g, rfl, cells, hlinked, hapart, hlist, hbody⟩

/-- **PUT and DELETE in memory** are PUT and DELETE on the list. -/
theorem checkDynamicResource_sim (uri : Bytes) {new code : Nat} (hnew : code = 1001 → g.cells new = none) :
    ∃ g', checkDynamicResource fuel new g uri code = .returns ((Tcp.checkDynamicResource server uri code).1, g') ∧
      Represents g' (Tcp.checkDynamicResource server uri code).2 := by
  unfold checkDynamicResource Tcp.checkDynamicResource
  by_cases hdyn : strncmp uri dynamicPrefix 9 = false
  · rw [if_pos hdyn, if_pos hdyn]
    exact ⟨g, rfl, h⟩
  · rw [if_neg hdyn, if_neg hdyn]
    generalize uri.drop 9 = filename
    simp only
    by_cases hempty : filename = []
    · simp only [if_pos hempty]
      split
      · exact ⟨g, rfl, h⟩
      · split
        · exact ⟨g, rfl, h⟩
        · exact ⟨g, rfl, h⟩
    · simp only [if_neg hempty]
      by_cases hput : code = 1001
      · rw [if_pos hput, if_pos hput]
        exact put_sim h hfuel (hnew hput) filename
      · rw [if_neg hput, if_neg hput]
        by_cases hdelete : code = 1002
        · rw [if_pos hdelete, if_pos hdelete]
          exact delete_sim h hfuel filename
        · rw [if_neg hdelete, if_neg hdelete]
          exact ⟨g, rfl, h⟩

end Calls

end ChordDht.Tcp.Linked
