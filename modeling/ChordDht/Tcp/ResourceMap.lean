/-
The resources of the server as a finite map.

A PUT, a DELETE and a GET each have a meaning on a map from names to contents and on the
global `body`, which all of them share.  The list keeps to that meaning call by call, and
the cells in memory keep to the list, so any run of calls returns what the map prescribes.
-/
import ChordDht.Lib.FiniteMap
import ChordDht.Lib.Trace
import ChordDht.Tcp.LinkedList
import ChordDht.Tcp.Resources

namespace ChordDht.Tcp

open Linked Outcome Trace

/-- What the map and `body` hold. -/
structure Contents where
  map : Bytes → Option Bytes
  body : Bytes

/-- The name behind `/dynamic/`. -/
def nameOf (uri : Bytes) : Option Bytes :=
  if dynamicPrefix <+: uri then some (uri.drop dynamicPrefix.length) else none

/-- A call; `load` stands for whatever else is copied to `body`, and a PUT is given the address
that `malloc` returns if it is asked. -/
inductive Call where
  | load (text : Bytes)
  | put (uri : Bytes) (new : Nat)
  | delete (uri : Bytes)
  | get (uri : Bytes)
  deriving DecidableEq, Repr

namespace Call

/-- The call on the cells in memory, and the code it returns, if any. -/
def exec (fuel : Nat) (g : Globals) : Call → Outcome (Option Nat × Globals)
  | load text => return (none, g.setBody text)
  | put uri new => do
      let (code, g) ← Linked.checkDynamicResource fuel new g uri 1001
      return (some code, g)
  | delete uri => do
      let (code, g) ← Linked.checkDynamicResource fuel 0 g uri 1002
      return (some code, g)
  | get uri => do
      let (code, g) ← Linked.getDynamicRessource fuel g uri
      return (some code, g)

/-- The call on the map: `none` is a URI outside of `/dynamic/`, and the empty name is none. -/
def spec (s : Contents) : Call → Option Nat × Contents
  | load text => (none, { s with body := text.take (bodySize - 1) })
  | put uri _ =>
      match nameOf uri with
      | none => (some 403, s)
      | some [] => (some 404, s)
      | some (c :: cs) => (some (if (s.map (c :: cs)).isSome then 204 else 201),
          { s with map := Function.update s.map (c :: cs) (some (cstr s.body)) })
  | delete uri =>
      match nameOf uri with
      | none => (some 403, s)
      | some [] => (some 404, s)
      | some (c :: cs) =>
          if (s.map (c :: cs)).isSome then (some 204, { s with map := Function.update s.map (c :: cs) none })
          else (some 404, s)
  | get uri =>
      match nameOf uri with
      | none => (some 404, s)
      | some [] => (some 404, s)
      | some (c :: cs) =>
          match s.map (c :: cs) with
          | some content => (some 200, { s with body := content })
          | none => (some 404, s)

/-- `malloc` returns an address that is not in use. -/
def Allocates (g : Globals) : Call → Prop
  | put _ new => g.cells new = none
  | _ => True

instance (g : Globals) (call : Call) : Decidable (call.Allocates g) := by
  cases call <;> unfold Allocates <;> infer_instance

/-- The URI that the call is for. -/
def uri : Call → Option Bytes
  | load _ => none
  | put uri _ => some uri
  | delete uri => some uri
  | get uri => some uri

end Call

/-- Some calls, and the codes they return. -/
def callAll (fuel : Nat) (g : Globals) : List Call → Outcome (List (Option Nat) × Globals)
  | [] => return ([], g)
  | call :: calls => do
      let (code, g) ← call.exec fuel g
      let (codes, g) ← callAll fuel g calls
      return (code :: codes, g)

/-- The same calls on the map. -/
def specAll (s : Contents) : List Call → List (Option Nat) × Contents
  | [] => ([], s)
  | call :: calls =>
      let (code, s) := call.spec s
      let (codes, s) := specAll s calls
      (code :: codes, s)

/-- The globals after a call. -/
def nextGlobals (fuel : Nat) (g : Globals) (call : Call) : Option Globals :=
  match call.exec fuel g with
  | .returns (_, g) => some g
  | _ => none

/-- The globals when the server starts. -/
def Linked.Globals.start : Globals := ⟨fun _ => none, none, [], fits_nil⟩

def Contents.empty : Contents := ⟨fun _ => none, []⟩

/-- The resources as pairs. -/
def named (resources : List DynamicResource) : List (Bytes × Bytes) :=
  resources.map fun r => (r.filename, r.content)

/-- The list is one of the map, and what is in it has room in `body`. -/
structure Keeps (server : Server) (s : Contents) : Prop where
  lists : Lists (named server.resourceList) s.map
  short : ∀ r ∈ server.resourceList, r.content.length < bodySize
  body : server.body = s.body

/-! ### The list -/

theorem nameOf_cases (uri : Bytes) : (strncmp uri dynamicPrefix 9 = false ∧ nameOf uri = none) ∨
    (strncmp uri dynamicPrefix 9 = true ∧ nameOf uri = some (uri.drop 9)) := by
  have hlen : dynamicPrefix.length = 9 := by decide
  have hiff := @strncmp_length uri dynamicPrefix (by decide)
  rw [hlen] at hiff
  unfold nameOf
  by_cases h : dynamicPrefix <+: uri
  · refine Or.inr ⟨hiff.mpr ?_, by rw [if_pos h, hlen]⟩
    rw [← hlen]
    exact (List.prefix_iff_eq_take.mp h).symm
  · refine Or.inl ⟨?_, if_neg h⟩
    rw [Bool.eq_false_iff]
    intro hc
    refine h (List.prefix_iff_eq_take.mpr ?_)
    rw [hlen]
    exact (hiff.mp hc).symm

/-- A resource of a name, with those before and behind it. -/
theorem Keeps.split {server : Server} {s : Contents} (h : Keeps server s) {name : Bytes}
    (hany : server.resourceList.any (·.filename == name) = true) :
    ∃ front resource back, server.resourceList = front ++ resource :: back ∧ resource.filename = name ∧
      (∀ r ∈ front, ¬ (r.filename == name) = true) ∧ s.map name = some resource.content := by
  obtain ⟨resource, hmem, hname⟩ := List.any_eq_true.mp hany
  obtain ⟨front, back, hlist⟩ := List.append_of_mem hmem
  have hname' : resource.filename = name := by simpa using hname
  have hkeys := h.lists.keys
  have hpair : (name, resource.content) ∈ named server.resourceList :=
    List.mem_map.mpr ⟨resource, hmem, by rw [hname']⟩
  refine ⟨front, resource, back, hlist, hname', ?_, (h.lists.mem _ _).mp hpair⟩
  intro r hr hsame
  rw [hlist, named, List.map_append, List.map_append, List.map_cons, List.map_cons] at hkeys
  refine (List.nodup_append.mp hkeys).2.2 name ?_ name ?_ rfl
  · exact List.mem_map.mpr ⟨_, List.mem_map.mpr ⟨r, hr, rfl⟩, by simpa using hsame⟩
  · rw [hname']
    exact List.mem_cons_self ..

theorem Keeps.none_of_any {server : Server} {s : Contents} (h : Keeps server s) {name : Bytes}
    (hany : server.resourceList.any (·.filename == name) = false) : s.map name = none := by
  refine (h.lists.notMem_iff name).mp ?_
  intro hmem
  obtain ⟨pair, hpair, rfl⟩ := List.mem_map.mp hmem
  obtain ⟨r, hr, rfl⟩ := List.mem_map.mp hpair
  exact List.any_eq_false.mp hany r hr (beq_self_eq_true r.filename)

/-- **A PUT** is one of the map. -/
theorem Keeps.put {server : Server} {s : Contents} (h : Keeps server s) (uri : Bytes) (new : Nat) :
    some (checkDynamicResource server uri 1001).1 = ((Call.put uri new).spec s).1 ∧
      Keeps (checkDynamicResource server uri 1001).2 ((Call.put uri new).spec s).2 := by
  rw [checkDynamicResource, Call.spec]
  rcases nameOf_cases uri with ⟨hdyn, hname⟩ | ⟨hdyn, hname⟩
  · rw [if_pos hdyn, hname]
    exact ⟨rfl, h⟩
  · rw [if_neg (by rw [hdyn]; exact Bool.noConfusion), hname]
    cases uri.drop 9 with
    | nil => exact ⟨rfl, h⟩
    | cons c cs =>
        simp only [if_true, List.cons_ne_nil, if_false]
        have hbody : (cstr server.body).length < bodySize :=
          Nat.lt_of_le_of_lt (cstr_length_le _) server.fits
        cases hany : server.resourceList.any (·.filename == c :: cs) with
        | true =>
            obtain ⟨front, resource, back, hlist, hfile, hfront, hmap⟩ := h.split hany
            have hlists := h.lists
            rw [if_pos rfl, hlist, replaceContent_append _ hfront hfile, hmap]
            rw [hlist, named, List.map_append, List.map_cons, hfile] at hlists
            refine ⟨rfl, ?_, ?_, h.body⟩
            · show Lists (named (front ++ { resource with content := cstr server.body } :: back)) _
              rw [named, List.map_append, List.map_cons, hfile, ← h.body]
              exact hlists.change (cstr server.body)
            · intro r hr
              rcases List.mem_append.mp hr with hr | hr
              · exact h.short r (by rw [hlist]; exact List.mem_append_left _ hr)
              · rcases List.mem_cons.mp hr with rfl | hr
                · exact hbody
                · exact h.short r (by rw [hlist]; exact List.mem_append_right _ (List.mem_cons_of_mem _ hr))
        | false =>
            have hmap := h.none_of_any hany
            rw [if_neg Bool.false_ne_true, hmap]
            refine ⟨rfl, ?_, ?_, h.body⟩
            · show Lists ((c :: cs, cstr server.body) :: named server.resourceList) _
              rw [← h.body]
              exact @Lists.insert _ _ _ _ [] _ (c :: cs) h.lists hmap (cstr server.body)
            · intro r hr
              rcases List.mem_cons.mp hr with rfl | hr
              · exact hbody
              · exact h.short r hr

/-- **A DELETE** is one of the map. -/
theorem Keeps.delete {server : Server} {s : Contents} (h : Keeps server s) (uri : Bytes) :
    some (checkDynamicResource server uri 1002).1 = ((Call.delete uri).spec s).1 ∧
      Keeps (checkDynamicResource server uri 1002).2 ((Call.delete uri).spec s).2 := by
  rw [checkDynamicResource, Call.spec]
  rcases nameOf_cases uri with ⟨hdyn, hname⟩ | ⟨hdyn, hname⟩
  · rw [if_pos hdyn, hname]
    exact ⟨rfl, h⟩
  · rw [if_neg (by rw [hdyn]; exact Bool.noConfusion), hname]
    cases uri.drop 9 with
    | nil => exact ⟨rfl, h⟩
    | cons c cs =>
        simp only [if_true, List.cons_ne_nil, if_false, show ¬ (1002 = 1001) by decide]
        cases hany : server.resourceList.any (·.filename == c :: cs) with
        | true =>
            obtain ⟨front, resource, back, hlist, hfile, hfront, hmap⟩ := h.split hany
            have hlists := h.lists
            have herase : server.resourceList.eraseP (·.filename == c :: cs) = front ++ back := by
              rw [hlist, List.eraseP_append_right _ hfront, List.eraseP_cons_of_pos (by simpa using hfile)]
            rw [if_pos rfl, herase, hmap]
            rw [hlist, named, List.map_append, List.map_cons, hfile] at hlists
            refine ⟨rfl, ?_, ?_, h.body⟩
            · show Lists (named (front ++ back)) _
              rw [named, List.map_append]
              exact hlists.erase
            · intro r hr
              refine h.short r ?_
              rw [hlist]
              rcases List.mem_append.mp hr with hr | hr
              · exact List.mem_append_left _ hr
              · exact List.mem_append_right _ (List.mem_cons_of_mem _ hr)
        | false =>
            rw [if_neg Bool.false_ne_true, h.none_of_any hany]
            exact ⟨rfl, h⟩

/-- **A GET** is one of the map: a content has room in `body`. -/
theorem Keeps.get {server : Server} {s : Contents} (h : Keeps server s) (uri : Bytes) :
    some (getDynamicRessource server uri).1 = ((Call.get uri).spec s).1 ∧
      Keeps (getDynamicRessource server uri).2 ((Call.get uri).spec s).2 := by
  rw [getDynamicRessource, Call.spec]
  rcases nameOf_cases uri with ⟨hdyn, hname⟩ | ⟨hdyn, hname⟩
  · rw [if_pos hdyn, hname]
    exact ⟨rfl, h⟩
  · rw [if_neg (by rw [hdyn]; exact Bool.noConfusion), hname]
    cases uri.drop 9 with
    | nil => exact ⟨rfl, h⟩
    | cons c cs =>
        simp only [List.cons_ne_nil, if_false]
        cases hfind : server.resourceList.find? (·.filename == c :: cs) with
        | some resource =>
            have hmem := List.mem_of_find?_eq_some hfind
            have hfile : resource.filename = c :: cs := by simpa using List.find?_some hfind
            have hmap : s.map (c :: cs) = some resource.content := by
              rw [← h.lists.mem]
              exact List.mem_map.mpr ⟨resource, hmem, by rw [hfile]⟩
            have hshort := h.short resource hmem
            have htake : resource.content.take (bodySize - 1) = resource.content := by
              apply List.take_of_length_le
              omega
            rw [hmap]
            exact ⟨rfl, h.lists, h.short, htake⟩
        | none =>
            have hany : server.resourceList.any (·.filename == c :: cs) = false := by
              rw [List.any_eq_false]
              exact List.find?_eq_none.mp hfind
            rw [h.none_of_any hany]
            exact ⟨rfl, h⟩

/-! ### Memory -/

/-- The cells in memory are a list of the map, of so many resources at most. -/
def Tracks (g : Globals) (s : Contents) (n : Nat) : Prop :=
  ∃ server, Represents g server ∧ Keeps server s ∧ server.resourceList.length ≤ n

theorem length_replaceContent (filename content : Bytes) (resources : List DynamicResource) :
    (replaceContent filename content resources).length = resources.length := by
  induction resources with
  | nil => rfl
  | cons r rest ih =>
      rw [replaceContent]
      split
      · rfl
      · rw [List.length_cons, ih, List.length_cons]

theorem length_checkDynamicResource (server : Server) (uri : Bytes) (code : Nat) :
    (checkDynamicResource server uri code).2.resourceList.length ≤ server.resourceList.length + 1 := by
  have herase : (server.resourceList.eraseP (·.filename == uri.drop 9)).length ≤ server.resourceList.length :=
    List.eraseP_sublist.length_le
  have hreplace := length_replaceContent (uri.drop 9) (cstr server.body) server.resourceList
  unfold checkDynamicResource
  split
  · exact Nat.le_succ _
  · simp only
    split
    · split
      · exact Nat.le_succ _
      · split
        · exact Nat.le_succ_of_le (Nat.le_of_eq hreplace)
        · exact Nat.le_refl _
    · split
      · split
        · exact Nat.le_succ _
        · split
          · exact Nat.le_succ_of_le herase
          · exact Nat.le_succ _
      · exact Nat.le_succ _

/-- **One call** in memory is one of the map. -/
theorem exec_tracks {g : Globals} {s : Contents} {n fuel : Nat} (h : Tracks g s n) (hfuel : n ≤ fuel)
    {call : Call} (hmalloc : call.Allocates g) :
    ∃ g', call.exec fuel g = .returns ((call.spec s).1, g') ∧ Tracks g' (call.spec s).2 (n + 1) := by
  obtain ⟨server, hrep, hkeeps, hlen⟩ := h
  have hroom : server.resourceList.length ≤ fuel := Nat.le_trans hlen hfuel
  cases call with
  | load text =>
      obtain ⟨cells, hlinked, hapart, hlist, hbody⟩ := hrep
      refine ⟨g.setBody text, rfl, server.setBody text, ⟨cells, hlinked, hapart, hlist, rfl⟩, ?_,
        Nat.le_succ_of_le hlen⟩
      exact ⟨hkeeps.lists, hkeeps.short, rfl⟩
  | put uri new =>
      obtain ⟨g', hcall, hrep'⟩ := checkDynamicResource_sim hrep hroom uri fun _ => hmalloc
      obtain ⟨hcode, hkeeps'⟩ := hkeeps.put uri new
      refine ⟨g', ?_, _, hrep', hkeeps', ?_⟩
      · rw [Call.exec, hcall, returns_bind, ← hcode]
        rfl
      · have hgrows := length_checkDynamicResource server uri 1001
        omega
  | delete uri =>
      obtain ⟨g', hcall, hrep'⟩ := @checkDynamicResource_sim _ _ hrep _ hroom uri 0 1002 fun hc => absurd hc (by decide)
      obtain ⟨hcode, hkeeps'⟩ := hkeeps.delete uri
      refine ⟨g', ?_, _, hrep', hkeeps', ?_⟩
      · rw [Call.exec, hcall, returns_bind, ← hcode]
        rfl
      · have hgrows := length_checkDynamicResource server uri 1002
        omega
  | get uri =>
      obtain ⟨g', hcall, hrep'⟩ := getDynamicRessource_sim hrep hroom uri
      obtain ⟨hcode, hkeeps'⟩ := hkeeps.get uri
      refine ⟨g', ?_, _, hrep', hkeeps', ?_⟩
      · rw [Call.exec, hcall, returns_bind, ← hcode]
        rfl
      · rw [getDynamicRessource_list]
        omega

/-- **A run** in memory is a run of the map. -/
theorem callAll_tracks {fuel : Nat} : ∀ {calls : List Call} {g : Globals} {s : Contents} {n : Nat},
    Tracks g s n → n + calls.length ≤ fuel →
      Along (nextGlobals fuel) (fun g call => call.Allocates g) g calls →
        ∃ g', callAll fuel g calls = .returns ((specAll s calls).1, g') ∧
          Tracks g' (specAll s calls).2 (n + calls.length) := by
  intro calls
  induction calls with
  | nil => intro g s n h _ _; exact ⟨g, rfl, h⟩
  | cons call calls ih =>
      intro g s n h hfuel hmalloc
      rw [List.length_cons] at hfuel
      obtain ⟨hfirst, hrest⟩ := hmalloc
      obtain ⟨g₁, hcall, htracks⟩ := exec_tracks h (show n ≤ fuel by omega) hfirst
      have hnext : nextGlobals fuel g call = some g₁ := by
        rw [nextGlobals, hcall]
      obtain ⟨g₂, hcalls, htracks'⟩ := ih htracks (by omega) (hrest g₁ hnext)
      refine ⟨g₂, ?_, ?_⟩
      · rw [callAll, hcall, returns_bind]
        simp only [hcalls, returns_bind]
        rfl
      · rw [List.length_cons, Nat.add_comm calls.length 1, ← Nat.add_assoc]
        exact htracks'

/-- What can be seen of globals that stand for a map. -/
structure Refines (g : Globals) (s : Contents) : Prop where
  resources : ∃ cells : List (Nat × DynamicResource), Chain.Linked g.cells g.resourceList cells none ∧
    (cells.map fun cell => cell.2.filename).Nodup ∧
    ∀ name content, (∃ cell ∈ cells, cell.2 = ⟨name, content⟩) ↔ s.map name = some content
  body : g.body = s.body

theorem Tracks.refines {g : Globals} {s : Contents} {n : Nat} (h : Tracks g s n) : Refines g s := by
  obtain ⟨server, ⟨cells, hlinked, -, hlist, hbody⟩, hkeeps, -⟩ := h
  have hlists := hkeeps.lists
  rw [← hlist, named, List.map_map] at hlists
  refine ⟨⟨cells, hlinked, ?_, ?_⟩, hbody.trans hkeeps.body⟩
  · have hkeys := hlists.keys
    rwa [List.map_map] at hkeys
  · intro name content
    rw [← hlists.mem, List.mem_map]
    refine exists_congr fun cell => and_congr_right fun _ => ?_
    rw [Function.comp_apply, Prod.mk.injEq]
    constructor
    · intro hcell
      rw [hcell]
      exact ⟨rfl, rfl⟩
    · rintro ⟨rfl, rfl⟩
      rfl

/-- A URI without a name is refused, and nothing changes. -/
theorem exec_nameless {g : Globals} {call : Call} {uri : Bytes} (huri : call.uri = some uri)
    (hname : nameOf uri = none ∨ nameOf uri = some []) (fuel : Nat) :
    ∃ code, call.exec fuel g = .returns (code, g) := by
  have hrefused : strncmp uri dynamicPrefix 9 = false ∨
      strncmp uri dynamicPrefix 9 = true ∧ uri.drop 9 = [] := by
    rcases nameOf_cases uri with ⟨hdyn, -⟩ | ⟨hdyn, hsome⟩
    · exact Or.inl hdyn
    · refine Or.inr ⟨hdyn, ?_⟩
      rw [hsome] at hname
      rcases hname with hname | hname
      · cases hname
      · exact Option.some.inj hname
  cases call with
  | load text => cases huri
  | put uri' new =>
      obtain rfl := Option.some.inj huri
      rcases hrefused with hdyn | ⟨hdyn, hempty⟩
      · exact ⟨some 403, by simp [Call.exec, Linked.checkDynamicResource, hdyn]⟩
      · exact ⟨some 404, by simp [Call.exec, Linked.checkDynamicResource, hdyn, hempty]⟩
  | delete uri' =>
      obtain rfl := Option.some.inj huri
      rcases hrefused with hdyn | ⟨hdyn, hempty⟩
      · exact ⟨some 403, by simp [Call.exec, Linked.checkDynamicResource, hdyn]⟩
      · exact ⟨some 404, by simp [Call.exec, Linked.checkDynamicResource, hdyn, hempty]⟩
  | get uri' =>
      obtain rfl := Option.some.inj huri
      rcases hrefused with hdyn | ⟨hdyn, hempty⟩
      · exact ⟨some 404, by simp [Call.exec, Linked.getDynamicRessource, hdyn]⟩
      · exact ⟨some 404, by simp [Call.exec, Linked.getDynamicRessource, hdyn, hempty]⟩

theorem tracks_start : Tracks .start .empty 0 :=
  ⟨⟨[], [], [], by decide⟩, ⟨[], rfl, List.nodup_nil, rfl, rfl⟩,
    ⟨Lists.nil, fun r hr => absurd hr List.not_mem_nil, rfl⟩, Nat.le_refl _⟩

/-- **The linked list is a finite map.**  After any calls the codes are those that the map
prescribes, the list in memory is one of the map with each name once, and a URI without a
name under `/dynamic/` changes nothing. -/
theorem resources_refine {calls : List Call} {fuel : Nat} (hfuel : calls.length ≤ fuel)
    (hmalloc : Along (nextGlobals fuel) (fun g call => call.Allocates g) .start calls) :
    ∃ g, callAll fuel .start calls = .returns ((specAll .empty calls).1, g) ∧
      Refines g (specAll .empty calls).2 ∧
      ∀ (call : Call) (uri : Bytes), call.uri = some uri → nameOf uri = none ∨ nameOf uri = some [] →
        ∃ code, call.exec fuel g = .returns (code, g) := by
  obtain ⟨g, hcalls, htracks⟩ := callAll_tracks tracks_start (show 0 + calls.length ≤ fuel by omega) hmalloc
  refine ⟨g, hcalls, htracks.refines, ?_⟩
  intro call uri huri hname
  exact exec_nameless huri hname fuel

/-- Two resources, the older of which is overwritten, read, and removed from the end of the list. -/
theorem resources_refine_two : ∃ g,
    callAll 8 .start [.load (ascii "one"), .put (ascii "/dynamic/a") 1, .load (ascii "two"),
        .put (ascii "/dynamic/b") 2, .put (ascii "/dynamic/a") 3, .get (ascii "/dynamic/b"),
        .delete (ascii "/dynamic/a"), .get (ascii "/dynamic/a")]
      = .returns ((specAll .empty [.load (ascii "one"), .put (ascii "/dynamic/a") 1, .load (ascii "two"),
        .put (ascii "/dynamic/b") 2, .put (ascii "/dynamic/a") 3, .get (ascii "/dynamic/b"),
        .delete (ascii "/dynamic/a"), .get (ascii "/dynamic/a")]).1, g) ∧
    Refines g (specAll .empty [.load (ascii "one"), .put (ascii "/dynamic/a") 1, .load (ascii "two"),
        .put (ascii "/dynamic/b") 2, .put (ascii "/dynamic/a") 3, .get (ascii "/dynamic/b"),
        .delete (ascii "/dynamic/a"), .get (ascii "/dynamic/a")]).2 ∧
    ∀ (call : Call) (uri : Bytes), call.uri = some uri → nameOf uri = none ∨ nameOf uri = some [] →
      ∃ code, call.exec 8 g = .returns (code, g) :=
  resources_refine (by decide) (by decide +kernel)

end ChordDht.Tcp
