import Mathlib

/-! # Configuration overlay — `prv_config_merge_objects`

    A JSON object is a list of fields in the order in which json-c keeps them.
    `json_object_object_add` puts the value in the place of an old one under the
    same key, or at the end.  The merge walks over the fields of the user file
    and descends where both sides hold an object.

    The C function shares subtrees of the source with the destination.  The keys
    of one object are different, so the loop never comes back to a subtree it
    has shared, and the destination is the value computed here.

    The main result is about paths: which value stands at which path of the
    merged tree, for every path and any nesting. -/

namespace ConfigMerge

/-- A `json_object`; a double is its bit pattern, a NULL pointer is `null`. -/
inductive Json where
  | null
  | boolean (b : Bool)
  | int (i : Int)
  | double (bits : UInt64)
  | string (s : String)
  | array (items : List Json)
  | object (fields : List (String × Json))

/-- The fields of an object. -/
abbrev Fields := List (String × Json)

/-- `json_object_get_type(..) == json_type_object`. -/
def Json.isObject : Json → Bool
  | .object _ => true
  | _ => false

/-- `json_object_object_get_ex`. -/
def objectGet : Fields → String → Option Json
  | [], _ => none
  | (k, v) :: rest, key => if k = key then some v else objectGet rest key

/-- `json_object_object_add`. -/
def objectAdd : Fields → String → Json → Fields
  | [], key, val => [(key, val)]
  | (k, v) :: rest, key, val =>
      if k = key then (k, val) :: rest else (k, v) :: objectAdd rest key val

/-- `prv_config_merge_objects`: the destination after the loop over the fields of
    the source. -/
def prvConfigMergeObjects (a : Fields) : Fields → Fields
  | [] => a
  | (key, .object bs) :: rest =>
      match objectGet a key with
      | some (.object tmp) =>
          prvConfigMergeObjects (objectAdd a key (.object (prvConfigMergeObjects tmp bs))) rest
      | _ => prvConfigMergeObjects (objectAdd a key (.object bs)) rest
  | (key, val) :: rest => prvConfigMergeObjects (objectAdd a key val) rest
termination_by b => sizeOf b

/-- The base configuration of `ticosd_config_init`: the built-in one, and the user
    file laid over it if the file can be read and holds an object. -/
def ticosdConfigInitBase (builtinConf : Fields) (file : Option Fields) : Fields :=
  match file with
  | none => builtinConf
  | some object => prvConfigMergeObjects builtinConf object

/-! ## Fields -/

theorem objectGet_add_self (a : Fields) (key : String) (val : Json) :
    objectGet (objectAdd a key val) key = some val := by
  induction a with
  | nil => simp only [objectAdd, objectGet, if_true]
  | cons f rest ih =>
      obtain ⟨k, v⟩ := f
      by_cases hk : k = key
      · simp only [objectAdd, if_pos hk, objectGet]
      · simp only [objectAdd, if_neg hk, objectGet]
        exact ih

theorem objectGet_add_other (a : Fields) {key k' : String} (val : Json) (h : key ≠ k') :
    objectGet (objectAdd a key val) k' = objectGet a k' := by
  induction a with
  | nil => simp only [objectAdd, objectGet, if_neg h]
  | cons f rest ih =>
      obtain ⟨k, v⟩ := f
      by_cases hk : k = key
      · have hk' : k ≠ k' := by rw [hk]; exact h
        simp only [objectAdd, if_pos hk, objectGet, if_neg hk']
      · simp only [objectAdd, if_neg hk, objectGet, ih]

/-- Adding what is there changes nothing. -/
theorem objectAdd_get {a : Fields} {key : String} {val : Json}
    (h : objectGet a key = some val) : objectAdd a key val = a := by
  induction a with
  | nil => exact nomatch h
  | cons f rest ih =>
      obtain ⟨k, v⟩ := f
      by_cases hk : k = key
      · rw [objectGet, if_pos hk] at h
        simp only [objectAdd, if_pos hk, Option.some.inj h]
      · rw [objectGet, if_neg hk] at h
        simp only [objectAdd, if_neg hk, ih h]

theorem objectGet_eq_none {a : Fields} {key : String} (h : key ∉ a.map Prod.fst) :
    objectGet a key = none := by
  induction a with
  | nil => rfl
  | cons f rest ih =>
      obtain ⟨k, v⟩ := f
      rw [List.map_cons, List.mem_cons, not_or] at h
      rw [objectGet, if_neg (fun hk => h.1 hk.symm)]
      exact ih h.2

/-- With different keys, every field is the one found under its key. -/
theorem objectGet_of_mem {a : Fields} (hkeys : (a.map Prod.fst).Nodup) {key : String}
    {val : Json} (h : (key, val) ∈ a) : objectGet a key = some val := by
  induction a with
  | nil => exact nomatch h
  | cons f rest ih =>
      obtain ⟨k, v⟩ := f
      rw [List.map_cons, List.nodup_cons] at hkeys
      rcases List.mem_cons.mp h with heq | hmem
      · obtain ⟨rfl, rfl⟩ := Prod.mk.inj heq
        rw [objectGet, if_pos rfl]
      · have hne : k ≠ key := by
          intro hk
          rw [hk] at hkeys
          exact hkeys.1 (List.mem_map.mpr ⟨_, hmem, rfl⟩)
        rw [objectGet, if_neg hne]
        exact ih hkeys.2 hmem

theorem mem_of_objectGet {a : Fields} {key : String} {val : Json}
    (h : objectGet a key = some val) : (key, val) ∈ a := by
  induction a with
  | nil => exact nomatch h
  | cons f rest ih =>
      obtain ⟨k, v⟩ := f
      by_cases hk : k = key
      · rw [objectGet, if_pos hk] at h
        rw [← hk, ← Option.some.inj h]
        exact List.mem_cons_self
      · rw [objectGet, if_neg hk] at h
        exact List.mem_cons_of_mem _ (ih h)

/-! ## The merge, field by field -/

/-- What stands under a key after the merge, from what the two sides have
    there. -/
def overlay : Option Json → Option Json → Option Json
  | a, none => a
  | some (.object tmp), some (.object bs) => some (.object (prvConfigMergeObjects tmp bs))
  | _, some val => some val

theorem overlay_not_object {a : Option Json} {val : Json} (h : val.isObject = false) :
    overlay a (some val) = some val := by
  cases val with
  | object bs => exact nomatch h
  | _ => cases a with
    | none => rfl
    | some v => cases v <;> rfl

theorem overlay_object_not {a : Option Json} {bs : Fields} (h : ∀ tmp, a ≠ some (.object tmp)) :
    overlay a (some (.object bs)) = some (.object bs) := by
  cases a with
  | none => rfl
  | some v => cases v with
    | object tmp => exact absurd rfl (h tmp)
    | _ => rfl

/-- One round of the loop. -/
theorem merge_cons (a : Fields) (key : String) (val : Json) (rest : Fields) :
    ∃ v, overlay (objectGet a key) (some val) = some v ∧
      prvConfigMergeObjects a ((key, val) :: rest)
        = prvConfigMergeObjects (objectAdd a key v) rest := by
  cases hval : val.isObject with
  | false =>
      refine ⟨val, overlay_not_object hval, ?_⟩
      cases val with
      | object bs => exact nomatch hval
      | _ => rw [prvConfigMergeObjects]; simp
  | true =>
      cases val with
      | object bs =>
          cases ha : objectGet a key with
          | none =>
              refine ⟨.object bs, rfl, ?_⟩
              rw [prvConfigMergeObjects, ha]
          | some v =>
              cases v with
              | object tmp =>
                  refine ⟨.object (prvConfigMergeObjects tmp bs), rfl, ?_⟩
                  rw [prvConfigMergeObjects, ha]
              | _ =>
                  refine ⟨.object bs, rfl, ?_⟩
                  rw [prvConfigMergeObjects, ha]
      | _ => exact nomatch hval

/-- **The merge, field by field.** -/
theorem objectGet_merge (a b : Fields) (hkeys : (b.map Prod.fst).Nodup) (key : String) :
    objectGet (prvConfigMergeObjects a b) key = overlay (objectGet a key) (objectGet b key) := by
  induction b generalizing a with
  | nil =>
      rw [prvConfigMergeObjects, objectGet]
      cases objectGet a key <;> rfl
  | cons f rest ih =>
      obtain ⟨k, v⟩ := f
      rw [List.map_cons, List.nodup_cons] at hkeys
      obtain ⟨w, hw, hmerge⟩ := merge_cons a k v rest
      rw [hmerge, ih _ hkeys.2]
      by_cases hk : k = key
      · subst hk
        rw [objectGet_add_self, objectGet_eq_none hkeys.1, objectGet, if_pos rfl, hw]
        cases w <;> rfl
      · rw [objectGet_add_other _ _ hk, objectGet, if_neg hk]

/-- The keys of the object are different, and so are those of the objects inside
    it. -/
inductive UniqueKeys : Fields → Prop where
  | intro {fields : Fields} (keys : (fields.map Prod.fst).Nodup)
      (inner : ∀ k sub, (k, .object sub) ∈ fields → UniqueKeys sub) : UniqueKeys fields

theorem UniqueKeys.keys {fields : Fields} (h : UniqueKeys fields) :
    (fields.map Prod.fst).Nodup := by
  cases h with
  | intro keys _ => exact keys

theorem UniqueKeys.inner {fields sub : Fields} {key : String} (h : UniqueKeys fields)
    (hget : objectGet fields key = some (.object sub)) : UniqueKeys sub := by
  cases h with
  | intro _ inner => exact inner key sub (mem_of_objectGet hget)

/-! ## Paths -/

/-- The value at a non-empty path: every key but the last one leads to an object. -/
def valueAt : Fields → List String → Option Json
  | _, [] => none
  | o, [key] => objectGet o key
  | o, key :: next :: path =>
      match objectGet o key with
      | some (.object sub) => valueAt sub (next :: path)
      | _ => none

/-- Whatever `b` has on the way to the path is an object. -/
def Open (b : Fields) (path : List String) : Prop :=
  ∀ pre, pre ≠ [] → pre <+: path → pre ≠ path →
    valueAt b pre = none ∨ ∃ sub, valueAt b pre = some (.object sub)

theorem valueAt_object {o sub : Fields} {key : String} {path : List String}
    (h : objectGet o key = some (.object sub)) (hne : path ≠ []) :
    valueAt o (key :: path) = valueAt sub path := by
  cases path with
  | nil => exact absurd rfl hne
  | cons next path => simp only [valueAt, h]

theorem valueAt_none {o : Fields} {key : String} (path : List String)
    (h : objectGet o key = none) : valueAt o (key :: path) = none := by
  cases path with
  | nil => exact h
  | cons next path => simp only [valueAt, h]

theorem valueAt_not_object {o : Fields} {key : String} {v : Json} {path : List String}
    (h : objectGet o key = some v) (hv : v.isObject = false) (hne : path ≠ []) :
    valueAt o (key :: path) = none := by
  cases path with
  | nil => exact absurd rfl hne
  | cons next path =>
      cases v with
      | object sub => exact nomatch hv
      | _ => simp only [valueAt, h]

/-- A path that begins with a key `b` does not have is open. -/
theorem open_of_none {b : Fields} {key : String} (path : List String)
    (h : objectGet b key = none) : Open b (key :: path) := by
  intro pre hne hpre _
  cases pre with
  | nil => exact absurd rfl hne
  | cons k pre =>
      obtain ⟨rfl, -⟩ := List.cons_prefix_cons.mp hpre
      exact Or.inl (valueAt_none pre h)

/-- Behind an object the path goes on. -/
theorem open_object {b sub : Fields} {key : String} {path : List String}
    (h : objectGet b key = some (.object sub)) :
    Open b (key :: path) ↔ Open sub path := by
  constructor
  · intro hopen pre hpre hp hneq
    have := hopen (key :: pre) (by simp) (List.cons_prefix_cons.mpr ⟨rfl, hp⟩)
      (fun heq => hneq (List.cons_eq_cons.mp heq).2)
    rw [valueAt_object h hpre] at this
    exact this
  · intro hopen pre hpre hp hneq
    cases pre with
    | nil => exact absurd rfl hpre
    | cons k pre =>
        obtain ⟨rfl, hp'⟩ := List.cons_prefix_cons.mp hp
        cases pre with
        | nil => exact Or.inr ⟨sub, h⟩
        | cons next pre =>
            rw [valueAt_object h (by simp)]
            exact hopen _ (by simp) hp' (fun heq => hneq (by rw [heq]))

/-- A path through a value that is not an object is blocked. -/
theorem not_open_of_value {b : Fields} {key : String} {v : Json} {path : List String}
    (h : objectGet b key = some v) (hv : v.isObject = false) (hne : path ≠ []) :
    ¬ Open b (key :: path) := by
  intro hopen
  rcases hopen [key] (by simp) (by simp) (fun heq => hne (List.cons_eq_cons.mp heq).2.symm)
    with hnone | ⟨sub, hsub⟩
  · rw [show valueAt b [key] = objectGet b key from rfl, h] at hnone
    exact nomatch hnone
  · rw [show valueAt b [key] = objectGet b key from rfl, h] at hsub
    rw [Option.some.inj hsub] at hv
    exact nomatch hv

/-- Where the source has nothing at the first key, the path is the destination's. -/
theorem valueAt_merge_none {a b : Fields} {key : String} {path : List String}
    (hkeys : (b.map Prod.fst).Nodup) (h : objectGet b key = none) :
    valueAt (prvConfigMergeObjects a b) (key :: path) = valueAt a (key :: path) := by
  have hget := objectGet_merge a b hkeys key
  rw [h, show overlay (objectGet a key) none = objectGet a key by cases objectGet a key <;> rfl]
    at hget
  cases path with
  | nil => exact hget
  | cons next path => simp only [valueAt, hget]

/-- A value of the merged tree at the end of its path. -/
theorem valueAt_merge_single {a b : Fields} (hkeys : (b.map Prod.fst).Nodup) {key : String}
    {v : Json} (hv : v.isObject = false) :
    objectGet (prvConfigMergeObjects a b) key = some v ↔
      objectGet b key = some v ∨ (objectGet a key = some v ∧ objectGet b key = none) := by
  rw [objectGet_merge a b hkeys key]
  cases hb : objectGet b key with
  | none =>
      rw [show overlay (objectGet a key) none = objectGet a key by cases objectGet a key <;> rfl]
      simp
  | some w =>
      simp only [reduceCtorEq, and_false, or_false]
      cases hw : w.isObject with
      | false => rw [overlay_not_object hw]
      | true =>
          cases w with
          | object bs =>
              have hno : ∀ sub, some (Json.object sub) ≠ some v := by
                intro sub heq
                rw [← Option.some.inj heq] at hv
                exact nomatch hv
              refine ⟨fun h => ?_, fun h => absurd h (hno bs)⟩
              by_cases ha : ∃ tmp, objectGet a key = some (.object tmp)
              · obtain ⟨tmp, ha⟩ := ha
                rw [ha] at h
                exact absurd h (hno _)
              · rw [overlay_object_not (fun tmp htmp => ha ⟨tmp, htmp⟩)] at h
                exact absurd h (hno bs)
          | _ => exact nomatch hw

/-- **The path law.** -/
theorem valueAt_merge {v : Json} (hv : v.isObject = false) : ∀ (path : List String), path ≠ [] →
    ∀ a b : Fields, UniqueKeys b →
      (valueAt (prvConfigMergeObjects a b) path = some v ↔
        valueAt b path = some v ∨
          (valueAt a path = some v ∧ valueAt b path = none ∧ Open b path)) := by
  intro path
  induction path with
  | nil => intro hne; exact absurd rfl hne
  | cons key path ih =>
      intro _ a b hb
      cases hget : objectGet b key with
      | none =>
          rw [valueAt_merge_none hb.keys hget, valueAt_none path hget]
          simp only [reduceCtorEq, false_or, true_and]
          exact ⟨fun h => ⟨h, open_of_none path hget⟩, fun h => h.1⟩
      | some w =>
          by_cases hne : path = []
          · subst hne
            show objectGet _ key = some v ↔ _
            rw [valueAt_merge_single hb.keys hv]
            refine or_congr Iff.rfl ⟨fun h => ?_, fun h => ⟨h.1, h.2.1⟩⟩
            rw [hget] at h
            exact nomatch h.2
          · have hmerge := objectGet_merge a b hb.keys key
            rw [hget] at hmerge
            cases hw : w.isObject with
            | false =>
                -- a value of the source ends the path in both trees
                rw [overlay_not_object hw] at hmerge
                rw [valueAt_not_object hmerge hw hne, valueAt_not_object hget hw hne]
                simp only [reduceCtorEq, false_or, true_and, false_iff, not_and]
                exact fun _ => not_open_of_value hget hw hne
            | true =>
                cases w with
                | object bs =>
                    rw [valueAt_object hget hne, open_object hget]
                    by_cases ha : ∃ tmp, objectGet a key = some (.object tmp)
                    · obtain ⟨tmp, ha⟩ := ha
                      rw [ha] at hmerge
                      rw [valueAt_object hmerge hne, valueAt_object ha hne]
                      -- two objects meet: the law for the rest of the path
                      exact ih hne tmp bs (hb.inner hget)
                    · -- the object of the source takes the place of a value that is none
                      rw [overlay_object_not (fun tmp htmp => ha ⟨tmp, htmp⟩)] at hmerge
                      rw [valueAt_object hmerge hne]
                      refine ⟨Or.inl, ?_⟩
                      rintro (h | ⟨h, -, -⟩)
                      · exact h
                      · exfalso
                        cases haget : objectGet a key with
                        | none =>
                            rw [valueAt_none path haget] at h
                            exact nomatch h
                        | some x =>
                            cases hx : x.isObject with
                            | false =>
                                rw [valueAt_not_object haget hx hne] at h
                                exact nomatch h
                            | true =>
                                cases x with
                                | object tmp => exact ha ⟨tmp, haget⟩
                                | _ => exact nomatch hx
                | _ => exact nomatch hw

/-! ## Merging twice -/

/-- A merge that finds every field of the source in its place changes nothing. -/
theorem merge_absorb {a b : Fields}
    (h : ∀ key val, (key, val) ∈ b → overlay (objectGet a key) (some val) = objectGet a key) :
    prvConfigMergeObjects a b = a := by
  induction b with
  | nil => rw [prvConfigMergeObjects]
  | cons f rest ih =>
      obtain ⟨key, val⟩ := f
      obtain ⟨w, hw, hmerge⟩ := merge_cons a key val rest
      rw [hmerge, objectAdd_get ((h key val List.mem_cons_self).symm.trans hw)]
      exact ih (fun k v hkv => h k v (List.mem_cons_of_mem _ hkv))

/-- Laying an object over itself changes nothing. -/
theorem merge_self {b : Fields} (h : UniqueKeys b) : prvConfigMergeObjects b b = b := by
  induction h with
  | intro keys inner ih =>
      refine merge_absorb ?_
      intro key val hmem
      rw [objectGet_of_mem keys hmem]
      cases val with
      | object sub => exact congrArg (fun o => some (Json.object o)) (ih key sub hmem)
      | _ => rfl

/-- Laying the same object over a second time changes nothing. -/
theorem merge_twice {b : Fields} (h : UniqueKeys b) :
    ∀ a, prvConfigMergeObjects (prvConfigMergeObjects a b) b = prvConfigMergeObjects a b := by
  induction h with
  | intro keys inner ih =>
      intro a
      refine merge_absorb ?_
      intro key val hmem
      rw [objectGet_merge a _ keys key, objectGet_of_mem keys hmem]
      cases hval : val.isObject with
      | false => rw [overlay_not_object hval, overlay_not_object hval]
      | true =>
          cases val with
          | object sub =>
              by_cases ha : ∃ tmp, objectGet a key = some (.object tmp)
              · obtain ⟨tmp, ha⟩ := ha
                rw [ha]
                exact congrArg (fun o => some (Json.object o)) (ih key sub hmem tmp)
              · rw [overlay_object_not (fun tmp htmp => ha ⟨tmp, htmp⟩)]
                exact congrArg (fun o => some (Json.object o)) (merge_self (inner key sub hmem))
          | _ => exact nomatch hval

/-- **Configuration overlay**: the merged tree has a value at a path exactly where
    the user file has it, or where the built-in configuration has it, the user
    file has nothing and does not block the way; and merging the same file again
    changes nothing. -/
theorem config_overlay (a b : Fields) (hb : UniqueKeys b) :
    (∀ path v, path ≠ [] → v.isObject = false →
      (valueAt (prvConfigMergeObjects a b) path = some v ↔
        valueAt b path = some v ∨
          (valueAt a path = some v ∧ valueAt b path = none ∧
            ∀ pre, pre ≠ [] → pre <+: path → pre ≠ path →
              valueAt b pre = none ∨ ∃ sub, valueAt b pre = some (.object sub)))) ∧
    prvConfigMergeObjects (prvConfigMergeObjects a b) b = prvConfigMergeObjects a b :=
  ⟨fun path _ hne hv => valueAt_merge hv path hne a b hb, merge_twice hb a⟩

/-- A user file that sets one key of a nested object. -/
def userFile : Fields := [("queue", .object [("size", .int 7)])]

theorem userFile_unique : UniqueKeys userFile := by
  refine .intro (by decide) ?_
  intro k sub hmem
  rw [userFile, List.mem_singleton] at hmem
  obtain ⟨-, heq⟩ := Prod.mk.inj hmem
  rw [Json.object.inj heq]
  refine .intro (by decide) ?_
  intro k' sub' hmem'
  rw [List.mem_singleton] at hmem'
  exact nomatch (Prod.mk.inj hmem').2

/-- The other keys of the nested object keep their built-in values. -/
theorem config_overlay_nested :
    valueAt (prvConfigMergeObjects
        [("queue", .object [("size", .int 1), ("file", .string "q")])] userFile)
      ["queue", "file"] = some (.string "q") := by
  refine ((config_overlay _ userFile userFile_unique).1 _ _ (by simp) rfl).mpr (Or.inr ⟨?_, ?_, ?_⟩)
  · simp [valueAt, objectGet]
  · simp [valueAt, objectGet, userFile]
  · intro pre hne hpre hneq
    have hmem : pre ∈ ["queue", "file"].inits := (List.mem_inits _ _).mpr hpre
    simp only [List.inits, List.map_cons, List.map_nil, List.mem_cons, List.not_mem_nil,
      or_false] at hmem
    rcases hmem with rfl | rfl | rfl
    · exact absurd rfl hne
    · exact Or.inr ⟨[("size", .int 7)], rfl⟩
    · exact absurd rfl hneq

end ConfigMerge
