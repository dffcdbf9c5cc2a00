import Ticosd.ConfigLookup

/-! # `ticosd_config_get_objects` — all keys of a parent at once

    The two objects under a parent are merged into an array, the runtime object over the
    base's.  A search by key and a getter should see the same (`objects_agree_iff`), and
    mostly do; but a `null` of the runtime tree is a value to the merge, which puts it in
    the place of the base's value, while to a getter it is a key that is not there. -/

namespace ConfigObjects

open ConfigMerge ConfigRuntime ConfigLookup

/-- The type of a `sTicosdConfigObject`, with the value that the type has. -/
inductive ConfigValue where
  | boolean (b : Bool)
  | integer (d : Int)
  | string (s : String)
  | object
  | unknown
  deriving DecidableEq

/-- `sTicosdConfigObject`. -/
structure ConfigObject where
  key : String
  value : ConfigValue
  deriving DecidableEq

/-- The `switch` of `prv_config_merge_object_into_array`. -/
def configValue : Json → ConfigValue
  | .boolean b => .boolean b
  | .int d => .integer (jsonObjectGetInt d)
  | .string s => .string s
  | .object _ => .object
  | _ => .unknown

/-- One round of its loop: the value goes to the entry of the key, or to a new one behind
    the others. -/
def mergeField : List ConfigObject → String → ConfigValue → List ConfigObject
  | [], key, value => [⟨key, value⟩]
  | o :: rest, key, value =>
      if o.key = key then ⟨o.key, value⟩ :: rest else o :: mergeField rest key value

/-- `prv_config_merge_object_into_array`. -/
def prvConfigMergeObjectIntoArray (objects : List ConfigObject) : Fields → List ConfigObject
  | [] => objects
  | (key, value) :: rest =>
      prvConfigMergeObjectIntoArray (mergeField objects key (configValue value)) rest

/-- The merge of what a tree has under a parent, if that is an object. -/
def mergeFound (objects : List ConfigObject) : Option Json → List ConfigObject
  | some (.object fields) => prvConfigMergeObjectIntoArray objects fields
  | _ => objects

/-- `ticosd_config_get_objects`. -/
def ticosdConfigGetObjects (handle : TicosdConfig) (parentKey : Option String) :
    List ConfigObject :=
  let objects := mergeFound [] (prvConfigFindObject handle.base parentKey "")
  mergeFound objects (prvConfigFindObject handle.runtime parentKey "")

/-! ## Search in the array -/

/-- The value of the first entry of a key. -/
def entry : List ConfigObject → String → Option ConfigValue
  | [], _ => none
  | o :: rest, key => if o.key = key then some o.value else entry rest key

/-- The keys of the entries are different. -/
def DistinctKeys (objects : List ConfigObject) : Prop := (objects.map ConfigObject.key).Nodup

theorem entry_of_mem {objects : List ConfigObject} (h : DistinctKeys objects) {key : String}
    {value : ConfigValue} (hmem : ⟨key, value⟩ ∈ objects) : entry objects key = some value := by
  induction objects with
  | nil => exact nomatch hmem
  | cons o rest ih =>
      rw [DistinctKeys, List.map_cons, List.nodup_cons] at h
      rcases List.mem_cons.mp hmem with heq | hrest
      · rw [← heq, entry, if_pos rfl]
      · have hne : o.key ≠ key := fun heq => h.1 (List.mem_map.mpr ⟨_, hrest, heq.symm⟩)
        rw [entry, if_neg hne]
        exact ih h.2 hrest

theorem mem_of_entry {objects : List ConfigObject} {key : String} {value : ConfigValue}
    (h : entry objects key = some value) : ⟨key, value⟩ ∈ objects := by
  induction objects with
  | nil => exact nomatch h
  | cons o rest ih =>
      rw [entry] at h
      by_cases hkey : o.key = key
      · rw [if_pos hkey] at h
        rw [← hkey, ← Option.some.inj h]
        exact List.mem_cons_self
      · rw [if_neg hkey] at h
        exact List.mem_cons_of_mem _ (ih h)

theorem mem_iff_entry {objects : List ConfigObject} (h : DistinctKeys objects) {key : String}
    {value : ConfigValue} : ⟨key, value⟩ ∈ objects ↔ entry objects key = some value :=
  ⟨entry_of_mem h, mem_of_entry⟩

/-! ## What a merge leaves -/

section Merge

variable (objects : List ConfigObject)

theorem entry_mergeField_self (key : String) (value : ConfigValue) :
    entry (mergeField objects key value) key = some value := by
  induction objects with
  | nil => simp only [mergeField, entry, if_true]
  | cons o rest ih =>
      by_cases hkey : o.key = key
      · simp only [mergeField, if_pos hkey, entry]
      · simp only [mergeField, if_neg hkey, entry]
        exact ih

theorem entry_mergeField_other {key k : String} (value : ConfigValue) (h : key ≠ k) :
    entry (mergeField objects key value) k = entry objects k := by
  induction objects with
  | nil => simp only [mergeField, entry, if_neg h]
  | cons o rest ih =>
      by_cases hkey : o.key = key
      · have hk : o.key ≠ k := by rw [hkey]; exact h
        simp only [mergeField, if_pos hkey, entry, if_neg hk]
      · simp only [mergeField, if_neg hkey, entry, ih]

theorem mem_keys_mergeField {key k : String} {value : ConfigValue}
    (h : k ∈ (mergeField objects key value).map ConfigObject.key) :
    k = key ∨ k ∈ objects.map ConfigObject.key := by
  induction objects with
  | nil => exact Or.inl (List.mem_singleton.mp h)
  | cons o rest ih =>
      rw [mergeField] at h
      by_cases hkey : o.key = key
      · rw [if_pos hkey] at h
        exact Or.inr h
      · rw [if_neg hkey, List.map_cons] at h
        rcases List.mem_cons.mp h with hhere | hrest
        · exact Or.inr (List.mem_cons.mpr (Or.inl hhere))
        · exact (ih hrest).imp_right (List.mem_cons_of_mem _)

theorem distinctKeys_mergeField (key : String) (value : ConfigValue)
    (h : DistinctKeys objects) : DistinctKeys (mergeField objects key value) := by
  induction objects with
  | nil => exact List.nodup_singleton _
  | cons o rest ih =>
      rw [mergeField]
      by_cases hkey : o.key = key
      · rw [if_pos hkey]
        exact h
      · rw [if_neg hkey]
        rw [DistinctKeys, List.map_cons, List.nodup_cons] at h ⊢
        exact ⟨fun hmem => (mem_keys_mergeField rest hmem).elim hkey h.1, ih h.2⟩

/-- The keys of the array stay different. -/
theorem distinctKeys_merge (fields : Fields) (h : DistinctKeys objects) :
    DistinctKeys (prvConfigMergeObjectIntoArray objects fields) := by
  induction fields generalizing objects with
  | nil => exact h
  | cons f rest ih => exact ih _ (distinctKeys_mergeField objects _ _ h)

/-- **A merge reads as an overlay**: the merged object first, then what was there. -/
theorem entry_merge (fields : Fields) (hkeys : (fields.map Prod.fst).Nodup) (key : String) :
    entry (prvConfigMergeObjectIntoArray objects fields) key
      = ((objectGet fields key).map configValue).or (entry objects key) := by
  induction fields generalizing objects with
  | nil => rfl
  | cons f rest ih =>
      obtain ⟨k, v⟩ := f
      rw [List.map_cons, List.nodup_cons] at hkeys
      rw [prvConfigMergeObjectIntoArray, ih _ hkeys.2, objectGet]
      by_cases hk : k = key
      · -- no later field has this key
        have hlater : objectGet rest key = none := objectGet_eq_none (hk ▸ hkeys.1)
        rw [if_pos hk, hlater, ← hk, entry_mergeField_self]
        rfl
      · rw [if_neg hk, entry_mergeField_other _ _ hk]

end Merge

/-! ## Both lookups, key by key -/

/-- What a tree has under a key of a parent, be it a `null`. -/
def fieldAt (tree : Fields) (parentKey : Option String) (key : String) : Option Json :=
  (parentObject tree parentKey).bind (objectGet · key)

theorem findObject_key (tree : Fields) (parentKey : Option String) {key : String}
    (hkey : key ≠ "") :
    prvConfigFindObject (some tree) parentKey key = notNull (fieldAt tree parentKey key) := by
  rw [fieldAt]
  simp only [prvConfigFindObject, if_neg hkey]
  cases parentObject tree parentKey with
  | none => rfl
  | some object => rfl

theorem findObject_whole (tree : Fields) (parentKey : Option String) :
    prvConfigFindObject (some tree) parentKey "" = (parentObject tree parentKey).map .object := by
  simp only [prvConfigFindObject, if_true]
  cases parentObject tree parentKey with
  | none => rfl
  | some object => rfl

theorem parentObject_unique {tree object : Fields} (h : UniqueKeys tree)
    {parentKey : Option String} (hobject : parentObject tree parentKey = some object) :
    UniqueKeys object := by
  rw [parentObject] at hobject
  by_cases hroot : parentKey.getD "" = ""
  · rw [if_pos hroot] at hobject
    rw [← Option.some.inj hobject]
    exact h
  · rw [if_neg hroot] at hobject
    cases hget : objectGet tree (parentKey.getD "") with
    | none =>
        rw [hget] at hobject
        cases hobject
    | some v =>
        rw [hget] at hobject
        cases v with
        | object fields =>
            rw [← Option.some.inj hobject]
            exact h.inner hget
        | _ => cases hobject

theorem entry_mergeFound {tree : Fields} (h : UniqueKeys tree) (parentKey : Option String)
    (objects : List ConfigObject) (key : String) :
    entry (mergeFound objects (prvConfigFindObject (some tree) parentKey "")) key
      = ((fieldAt tree parentKey key).map configValue).or (entry objects key) := by
  rw [findObject_whole, fieldAt]
  cases hobject : parentObject tree parentKey with
  | none => rfl
  | some object => exact entry_merge objects object (parentObject_unique h hobject).keys key

theorem distinctKeys_mergeFound (objects : List ConfigObject) (h : DistinctKeys objects)
    (found : Option Json) : DistinctKeys (mergeFound objects found) := by
  cases found with
  | none => exact h
  | some v =>
      cases v with
      | object fields => exact distinctKeys_merge objects fields h
      | _ => exact h

theorem distinctKeys_getObjects (handle : TicosdConfig) (parentKey : Option String) :
    DistinctKeys (ticosdConfigGetObjects handle parentKey) :=
  distinctKeys_mergeFound _ (distinctKeys_mergeFound [] List.nodup_nil _) _

/-- The entries of the array, by the two trees. -/
theorem entry_getObjects {base runtime : Fields} (hbase : UniqueKeys base)
    (hruntime : UniqueKeys runtime) (parentKey : Option String) (key : String) :
    entry (ticosdConfigGetObjects ⟨base, some runtime⟩ parentKey) key
      = ((fieldAt runtime parentKey key).or (fieldAt base parentKey key)).map configValue := by
  rw [ticosdConfigGetObjects]
  show entry (mergeFound (mergeFound [] (prvConfigFindObject (some base) parentKey ""))
    (prvConfigFindObject (some runtime) parentKey "")) key = _
  rw [entry_mergeFound hruntime, entry_mergeFound hbase, Option.map_or]
  cases fieldAt base parentKey key with
  | none => rfl
  | some v => rfl

/-- What the getters find, by the two trees. -/
theorem findEither_key (base runtime : Fields) (parentKey : Option String) {key : String}
    (hkey : key ≠ "") : findEither ⟨base, some runtime⟩ parentKey key
      = (notNull (fieldAt runtime parentKey key)).or (notNull (fieldAt base parentKey key)) := by
  rw [← findObject_key runtime parentKey hkey, ← findObject_key base parentKey hkey]
  rfl

/-- What the three typed entries of a key say, as the getters would. -/
def readingsOfEntry : Option ConfigValue → Readings
  | some (.string s) => ⟨some s, none, none⟩
  | some (.integer d) => ⟨none, some d, none⟩
  | some (.boolean b) => ⟨none, none, some b⟩
  | _ => ⟨none, none, none⟩

/-- The entries of a key and the getters for it say the same: for each of the three types
    and each value. -/
def AgreesAt (handle : TicosdConfig) (parentKey : Option String) (key : String) : Prop :=
  (∀ b, ⟨key, .boolean b⟩ ∈ ticosdConfigGetObjects handle parentKey ↔
    ticosdConfigGetBoolean handle parentKey key = some b) ∧
  (∀ d, ⟨key, .integer d⟩ ∈ ticosdConfigGetObjects handle parentKey ↔
    ticosdConfigGetInteger handle parentKey key = some d) ∧
  (∀ s, ⟨key, .string s⟩ ∈ ticosdConfigGetObjects handle parentKey ↔
    ticosdConfigGetString handle parentKey key = some s)

/-- The array agrees with the getters. -/
def Agrees (handle : TicosdConfig) (parentKey : Option String) : Prop :=
  DistinctKeys (ticosdConfigGetObjects handle parentKey) ∧
    ∀ key, key ≠ "" → AgreesAt handle parentKey key

/-- An entry as readings has the type and the value of the entry. -/
theorem readingsOfEntry_iff (found : Option ConfigValue) :
    (∀ b, found = some (.boolean b) ↔ (readingsOfEntry found).boolean = some b) ∧
    (∀ d, found = some (.integer d) ↔ (readingsOfEntry found).integer = some d) ∧
    (∀ s, found = some (.string s) ↔ (readingsOfEntry found).string = some s) := by
  cases found with
  | none => simp [readingsOfEntry]
  | some value => cases value <;> simp [readingsOfEntry]

theorem readings_ext {r r' : Readings} (hstring : ∀ s, r.string = some s ↔ r'.string = some s)
    (hinteger : ∀ d, r.integer = some d ↔ r'.integer = some d)
    (hboolean : ∀ b, r.boolean = some b ↔ r'.boolean = some b) : r = r' := by
  obtain ⟨s, d, b⟩ := r
  obtain ⟨s', d', b'⟩ := r'
  rw [Readings.mk.injEq]
  exact ⟨Option.ext hstring, Option.ext hinteger, Option.ext hboolean⟩

theorem agreesAt_iff (handle : TicosdConfig) (parentKey : Option String) (key : String) :
    AgreesAt handle parentKey key ↔
      readingsOfEntry (entry (ticosdConfigGetObjects handle parentKey) key)
        = readings handle parentKey key := by
  have hmem : ∀ value, ⟨key, value⟩ ∈ ticosdConfigGetObjects handle parentKey ↔
      entry (ticosdConfigGetObjects handle parentKey) key = some value :=
    fun _ => mem_iff_entry (distinctKeys_getObjects handle parentKey)
  obtain ⟨hboolean, hinteger, hstring⟩ :=
    readingsOfEntry_iff (entry (ticosdConfigGetObjects handle parentKey) key)
  constructor
  · rintro ⟨hb, hd, hs⟩
    refine readings_ext (fun s => ?_) (fun d => ?_) (fun b => ?_)
    · rw [← hstring, ← hmem]
      exact hs s
    · rw [← hinteger, ← hmem]
      exact hd d
    · rw [← hboolean, ← hmem]
      exact hb b
  · intro heq
    refine ⟨fun b => ?_, fun d => ?_, fun s => ?_⟩
    · rw [hmem, hboolean, heq]
      rfl
    · rw [hmem, hinteger, heq]
      rfl
    · rw [hmem, hstring, heq]
      rfl

/-- A boolean, an integer or a string. -/
def Typed : Json → Prop
  | .boolean _ => True
  | .int _ => True
  | .string _ => True
  | _ => False

/-- A `null` of the runtime tree stands over a boolean, an integer or a string. -/
def NullOver (base runtime : Fields) (parentKey : Option String) (key : String) : Prop :=
  fieldAt runtime parentKey key = some .null ∧
    ∃ v, fieldAt base parentKey key = some v ∧ Typed v

theorem readings_value (v : Json) :
    readingsOfEntry (some (configValue v)) = readingsOf (notNull (some v)) := by
  cases v <;> rfl

theorem readings_typed_iff (v : Json) :
    readingsOf (notNull (some v)) = readingsOf none ↔ ¬ Typed v := by
  cases v <;> simp [notNull, readingsOf, Typed]

/-- **Key by key**: array and getters differ where a `null` hides a value from the array. -/
theorem agreesAt_key_iff {base runtime : Fields} (hbase : UniqueKeys base)
    (hruntime : UniqueKeys runtime) (parentKey : Option String) {key : String}
    (hkey : key ≠ "") :
    AgreesAt ⟨base, some runtime⟩ parentKey key ↔ ¬ NullOver base runtime parentKey key := by
  rw [agreesAt_iff, entry_getObjects hbase hruntime, readings_eq,
    findEither_key base runtime parentKey hkey, NullOver]
  generalize fieldAt base parentKey key = under
  cases fieldAt runtime parentKey key with
  | none =>
      -- the base decides on both sides
      refine iff_of_true ?_ (fun h => nomatch h.1)
      cases under with
      | none => rfl
      | some v => exact readings_value v
  | some top =>
      by_cases hnull : top = .null
      · rw [hnull]
        show readingsOf none = readingsOf (notNull under) ↔ _
        cases under with
        | none => exact iff_of_true rfl (fun h => nomatch h.2)
        | some v =>
            rw [eq_comm, readings_typed_iff]
            constructor
            · rintro hplain ⟨-, w, hw, htyped⟩
              exact hplain (Option.some.inj hw ▸ htyped)
            · exact fun h htyped => h ⟨rfl, v, rfl, htyped⟩
      · -- any other value of the runtime tree hides the base's on both sides
        have hover : notNull (some top) = some top := by
          cases top with
          | null => exact absurd rfl hnull
          | _ => rfl
        refine iff_of_true ?_ (fun h => hnull (Option.some.inj h.1))
        rw [Option.some_or, Option.map_some, readings_value, hover, Option.some_or]

/-- **Whole-object lookup agrees with single lookups exactly when no `null` of the runtime
    tree stands over a boolean, an integer or a string of the base**, at the parent that is
    asked for. -/
theorem objects_agree_iff {base runtime : Fields} (hbase : UniqueKeys base)
    (hruntime : UniqueKeys runtime) (parentKey : Option String) :
    Agrees ⟨base, some runtime⟩ parentKey ↔
      ∀ key, key ≠ "" → ¬ NullOver base runtime parentKey key := by
  rw [Agrees, and_iff_right (distinctKeys_getObjects _ _)]
  exact forall₂_congr fun key hkey => agreesAt_key_iff hbase hruntime parentKey hkey

theorem objects_agree_iff_flag :
    Agrees ⟨[("k", .boolean true)], some [("k", .int 7), ("l", .null)]⟩ none := by
  have hbase : UniqueKeys [("k", .boolean true)] :=
    .intro (by decide) (by simp)
  have hruntime : UniqueKeys [("k", .int 7), ("l", .null)] :=
    .intro (by decide) (by simp)
  rw [objects_agree_iff hbase hruntime]
  rintro key - ⟨hnull, v, hv, -⟩
  have hkey : "k" ≠ key := by
    rintro rfl
    exact nomatch hnull
  rw [show fieldAt [("k", .boolean true)] none key = none from if_neg hkey] at hv
  exact nomatch hv

/-- A runtime tree that unsets a flag of the base: the getter still finds it, the array has
    an entry of unknown type. -/
theorem null_hides_flag : ¬ Agrees ⟨[("k", .boolean true)], some [("k", .null)]⟩ none := by
  rintro ⟨-, hagree⟩
  have hmem := ((hagree "k" (by decide)).1 true).mpr rfl
  have hobjects : ticosdConfigGetObjects ⟨[("k", .boolean true)], some [("k", .null)]⟩ none
      = [⟨"k", .unknown⟩] := rfl
  rw [hobjects] at hmem
  exact absurd hmem (by decide)

end ConfigObjects
