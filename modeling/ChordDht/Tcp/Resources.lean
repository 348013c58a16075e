/-
The list of resources, as what it holds under each name.

A PUT sets the content of its name, a DELETE takes a name away, and neither touches
what is under another name.  So the content of a name is settled by the last PUT or
DELETE of it: `answerAll_content` says so of any requests in between.
-/
import ChordDht.Tcp.Requests
import ChordDht.Tcp.Segments

namespace ChordDht.Tcp

/-- What is under a name. -/
def contentOf (name : Bytes) (resources : List DynamicResource) : Option Bytes :=
  (resources.find? (·.filename == name)).map (·.content)

/-- The request is a PUT or a DELETE of the resource. -/
def Touches (name request : Bytes) : Prop :=
  checkHeader request = (1001, some (dynamicPrefix ++ name)) ∨
    checkHeader request = (1002, some (dynamicPrefix ++ name))

instance (name request : Bytes) : Decidable (Touches name request) := by
  unfold Touches; infer_instance

/-- The request is a GET of the URI. -/
def IsGet (uri request : Bytes) : Prop := checkHeader request = (1000, some uri)

/-! ### Operations on the list -/

section List

variable {name name' content : Bytes}

theorem contentOf_cons (resource : DynamicResource) (resources : List DynamicResource) :
    contentOf name (resource :: resources) =
      if resource.filename = name then some resource.content else contentOf name resources := by
  unfold contentOf
  rw [List.find?_cons]
  by_cases h : resource.filename = name
  · simp [h]
  · have hbeq : (resource.filename == name) = false := by simpa using h
    simp [h, hbeq]

theorem any_filename (resources : List DynamicResource) :
    (resources.any (·.filename == name)) = (contentOf name resources).isSome := by
  unfold contentOf
  rw [Option.isSome_map, Bool.eq_iff_iff, List.any_eq_true, List.find?_isSome]

theorem contentOf_replace_self : ∀ {resources : List DynamicResource},
    (contentOf name resources).isSome → contentOf name (replaceContent name content resources)
      = some content := by
  intro resources
  induction resources with
  | nil => intro h; exact nomatch h
  | cons resource rest ih =>
      intro h
      rw [contentOf_cons] at h
      rw [replaceContent]
      by_cases hname : resource.filename = name
      · rw [if_pos hname, contentOf_cons, if_pos hname]
      · rw [if_neg hname] at h
        rw [if_neg hname, contentOf_cons, if_neg hname]
        exact ih h

theorem contentOf_replace_other (hne : name' ≠ name) : ∀ (resources : List DynamicResource),
    contentOf name (replaceContent name' content resources) = contentOf name resources := by
  intro resources
  induction resources with
  | nil => rfl
  | cons resource rest ih =>
      rw [replaceContent]
      by_cases hname : resource.filename = name'
      · have hother : resource.filename ≠ name := fun h => hne (hname.symm.trans h)
        rw [if_pos hname, contentOf_cons, contentOf_cons, if_neg hother, if_neg hother]
      · rw [if_neg hname, contentOf_cons, contentOf_cons, ih]

theorem contentOf_erase_other (hne : name' ≠ name) : ∀ (resources : List DynamicResource),
    contentOf name (resources.eraseP (·.filename == name')) = contentOf name resources := by
  intro resources
  induction resources with
  | nil => rfl
  | cons resource rest ih =>
      rw [List.eraseP_cons]
      by_cases hname : resource.filename = name'
      · have hother : resource.filename ≠ name := fun h => hne (hname.symm.trans h)
        rw [beq_iff_eq.mpr hname, cond_true, contentOf_cons, if_neg hother]
      · rw [beq_eq_false_iff_ne.mpr hname, cond_false, contentOf_cons, contentOf_cons, ih]

end List

/-! ### PUT and DELETE -/

/-- A URI under `/dynamic/` is the prefix and a name. -/
theorem dynamicPrefix_drop {uri : Bytes} (h : strncmp uri dynamicPrefix 9 = true) :
    uri = dynamicPrefix ++ uri.drop 9 := by
  have hlen : dynamicPrefix.length = 9 := by decide
  have hzero : (0 : UInt8) ∉ dynamicPrefix := by decide
  have htake := (strncmp_length hzero).mp (by rw [hlen]; exact h)
  rw [hlen] at htake
  rw [← htake, List.take_append_drop]

theorem strncmp_dynamicPrefix (name : Bytes) : strncmp (dynamicPrefix ++ name) dynamicPrefix 9 = true := by
  have hlen : dynamicPrefix.length = 9 := by decide
  have hzero : (0 : UInt8) ∉ dynamicPrefix := by decide
  have h := (@strncmp_length (dynamicPrefix ++ name) _ hzero).mpr (List.take_left ..)
  rwa [hlen] at h

theorem drop_dynamicPrefix (name : Bytes) : (dynamicPrefix ++ name).drop 9 = name := List.drop_left' rfl

/-- **After a PUT** the body is under the name. -/
theorem checkDynamicResource_put (server : Server) {name : Bytes} (hname : name ≠ []) :
    ∃ code server', checkDynamicResource server (dynamicPrefix ++ name) 1001 = (code, server') ∧
      (code = 201 ∨ code = 204) ∧ contentOf name server'.resourceList = some (cstr server.body) := by
  unfold checkDynamicResource
  simp only [strncmp_dynamicPrefix, drop_dynamicPrefix, Bool.true_eq_false, if_false, if_true, hname,
    any_filename]
  cases hfound : (contentOf name server.resourceList).isSome with
  | true => exact ⟨204, _, rfl, Or.inr rfl, contentOf_replace_self hfound⟩
  | false =>
      refine ⟨201, _, rfl, Or.inl rfl, ?_⟩
      show contentOf name (⟨name, cstr server.body⟩ :: server.resourceList) = _
      rw [contentOf_cons, if_pos rfl]

/-- A PUT or DELETE of another URI leaves what is under the name. -/
theorem checkDynamicResource_other (server : Server) {uri name : Bytes} (code : Nat)
    (hne : uri ≠ dynamicPrefix ++ name) :
    contentOf name (checkDynamicResource server uri code).2.resourceList
      = contentOf name server.resourceList := by
  unfold checkDynamicResource
  by_cases hprefix : strncmp uri dynamicPrefix 9 = false
  · rw [if_pos hprefix]
  · rw [if_neg hprefix]
    simp only
    have hother : uri.drop 9 ≠ name := by
      intro hdrop
      refine hne ?_
      rw [← hdrop]
      exact dynamicPrefix_drop (by simpa using hprefix)
    split
    · split
      · rfl
      · split
        · exact contentOf_replace_other hother _
        · show contentOf name (⟨uri.drop 9, cstr server.body⟩ :: server.resourceList) = _
          rw [contentOf_cons, if_neg hother]
    · split
      · split
        · rfl
        · split
          · exact contentOf_erase_other hother _
          · rfl
      · rfl

/-! ### Requests -/

theorem checkAfterFirstLine_or (buf : Bytes) (code : Nat) :
    checkAfterFirstLine buf code = 400 ∨ checkAfterFirstLine buf code = code := by
  unfold checkAfterFirstLine
  split
  · exact Or.inl rfl
  · simp only
    split
    · exact Or.inr rfl
    · split
      · exact Or.inl rfl
      · exact Or.inr rfl

theorem checkFirstLine_cases (buf : Bytes) :
    checkFirstLine buf = (400, none) ∨ checkFirstLine buf = (501, none) ∨
      ∃ code uri, checkFirstLine buf = (code, some uri) := by
  unfold checkFirstLine
  repeat' split
  all_goals simp

/-- With the code of a method the URI is copied. -/
theorem checkHeader_copied {request : Bytes} {code : Nat} {copied : Option Bytes}
    (h : checkHeader request = (code, copied)) (hcode : code = 1001 ∨ code = 1002) :
    ∃ uri, copied = some uri := by
  cases copied with
  | some uri => exact ⟨uri, rfl⟩
  | none =>
      unfold checkHeader at h
      simp only at h
      split at h
      · rw [Prod.mk.injEq] at h
        omega
      · rename_i hne
        rw [Prod.mk.injEq] at h
        rcases checkFirstLine_cases request with hfirst | hfirst | ⟨c, uri, hfirst⟩
        · rw [hfirst] at hne
          exact absurd rfl hne
        · rw [hfirst] at h
          have hafter : checkAfterFirstLine request 501 = code := h.1
          have hor := checkAfterFirstLine_or request 501
          omega
        · rw [hfirst] at h
          exact nomatch h.2

theorem getDynamicRessource_list (server : Server) (uri : Bytes) :
    (getDynamicRessource server uri).2.resourceList = server.resourceList := by
  unfold getDynamicRessource
  split
  · rfl
  · simp only
    split
    · rfl
    · split <;> rfl

theorem getBody_list (server : Server) (buf : Bytes) :
    (getBody server buf).resourceList = server.resourceList := by
  unfold getBody
  split <;> rfl

/-- **A request that does not PUT or DELETE the name** leaves what is under it. -/
theorem answer_content (server : Server) {name request : Bytes} (h : ¬ Touches name request) :
    contentOf name (answer server request).2.resourceList = contentOf name server.resourceList := by
  show contentOf name (getCode server request).2.resourceList = _
  cases hheader : checkHeader request with
  | mk code copied =>
      unfold getCode
      rw [hheader]
      simp only
      split
      · rfl
      · split
        · split
          · rfl
          · split
            · rw [getDynamicRessource_list]
              rfl
            · rfl
        · split
          · rename_i hput
            obtain ⟨uri, rfl⟩ := checkHeader_copied hheader (Or.inl hput)
            have hne : uri ≠ dynamicPrefix ++ name := by
              intro huri
              refine h (Or.inl ?_)
              rw [hheader, hput, huri]
            rw [Option.getD_some, checkDynamicResource_other _ _ hne, getBody_list]
            rfl
          · split
            · rename_i hdelete
              obtain ⟨uri, rfl⟩ := checkHeader_copied hheader (Or.inr hdelete)
              have hne : uri ≠ dynamicPrefix ++ name := by
                intro huri
                refine h (Or.inr ?_)
                rw [hheader, hdelete, huri]
              rw [Option.getD_some, checkDynamicResource_other _ _ hne]
              rfl
            · rfl

/-- **Whatever is asked in between**, the content stays. -/
theorem answerAll_content {name : Bytes} : ∀ (requests : List Bytes) (server : Server),
    (∀ r ∈ requests, ¬ Touches name r) →
      contentOf name (answerAll server requests).2.resourceList = contentOf name server.resourceList := by
  intro requests
  induction requests with
  | nil => intro server _; rfl
  | cons r rs ih =>
      intro server h
      show contentOf name (answerAll (answer server r).2 rs).2.resourceList = _
      rw [ih _ fun q hq => h q (List.mem_cons_of_mem _ hq), answer_content server (h r (List.mem_cons_self ..))]

end ChordDht.Tcp
