import Ticosd.ConfigRuntime

/-! # Getters of `config.c` — two trees read as one

    A getter asks the runtime tree, and the base only if nothing is found there; at the
    type it looks when it has chosen.  A setter changes the runtime tree alone, so it has
    to be shown that what it puts there is found, and that what was found under other
    keys still is (`set_then_get`): where the parent is no object yet, the setter makes
    one, and the new object must hide nothing of the base. -/

namespace ConfigLookup

open ConfigMerge ConfigRuntime

/-! ## Getters -/

/-- `json_object_get_int`. -/
def jsonObjectGetInt (i : Int) : Int := max (-2 ^ 31) (min i (2 ^ 31 - 1))

/-- The object that a getter finds. -/
def findEither (handle : TicosdConfig) (parentKey : Option String) (key : String) : Option Json :=
  (prvConfigFindObject handle.runtime parentKey key).or
    (prvConfigFindObject handle.base parentKey key)

/-- `ticosd_config_get_integer`. -/
def ticosdConfigGetInteger (handle : TicosdConfig) (parentKey : Option String) (key : String) :
    Option Int :=
  match findEither handle parentKey key with
  | some (.int val) => some (jsonObjectGetInt val)
  | _ => none

/-- `ticosd_config_get_boolean`. -/
def ticosdConfigGetBoolean (handle : TicosdConfig) (parentKey : Option String) (key : String) :
    Option Bool :=
  match findEither handle parentKey key with
  | some (.boolean val) => some val
  | _ => none

/-- What the three getters return for one key. -/
structure Readings where
  string : Option String
  integer : Option Int
  boolean : Option Bool
  deriving DecidableEq

def readings (handle : TicosdConfig) (parentKey : Option String) (key : String) : Readings where
  string := ticosdConfigGetString handle parentKey key
  integer := ticosdConfigGetInteger handle parentKey key
  boolean := ticosdConfigGetBoolean handle parentKey key

/-- What they return for an object. -/
def readingsOf : Option Json → Readings
  | some (.string val) => ⟨some val, none, none⟩
  | some (.int val) => ⟨none, some (jsonObjectGetInt val), none⟩
  | some (.boolean val) => ⟨none, none, some val⟩
  | _ => ⟨none, none, none⟩

theorem readings_eq (handle : TicosdConfig) (parentKey : Option String) (key : String) :
    readings handle parentKey key = readingsOf (findEither handle parentKey key) := by
  rw [readings, ticosdConfigGetString, ticosdConfigGetInteger, ticosdConfigGetBoolean,
    show (prvConfigFindObject handle.runtime parentKey key).or
      (prvConfigFindObject handle.base parentKey key) = findEither handle parentKey key from rfl]
  generalize findEither handle parentKey key = object
  cases object with
  | none => rfl
  | some object => cases object <;> rfl

theorem jsonObjectGetInt_of_fits {i : Int} (h : -2 ^ 31 ≤ i) (h' : i < 2 ^ 31) :
    jsonObjectGetInt i = i := by
  rw [jsonObjectGetInt]
  omega

/-! ## What a setter changes -/

/-- The key that is set, or the way to it: the key of the parent, which becomes an object,
    and the keys in an object that is replaced. -/
def Touched (c : Setter) (parentKey : Option String) (key : String) : Prop :=
  parentKey.getD "" = c.parentKey.getD "" ∧ key = c.key ∨
    parentKey.getD "" = "" ∧ key = c.parentKey.getD "" ∨
    c.parentKey.getD "" = "" ∧ parentKey.getD "" = c.key

/-- The value is one of its C type. -/
def Fits : Setter → Prop
  | .integer _ _ val => -2 ^ 31 ≤ val ∧ val < 2 ^ 31
  | _ => True

/-- What the getters should return for the key that is set. -/
def expected : Setter → Readings
  | .string _ _ val => ⟨some val, none, none⟩
  | .integer _ _ val => ⟨none, some val, none⟩
  | .boolean _ _ val => ⟨none, none, some val⟩

section Set

variable (runtime : Fields) {parentKey : Option String} {key : String} {val : Json}

/-- The object that the value has been put into. -/
theorem parentObject_set : parentObject (setObject runtime parentKey key val) parentKey
    = some (objectAdd ((parentObject runtime parentKey).getD []) key val) := by
  by_cases hroot : parentKey.getD "" = ""
  · rw [parentObject, if_pos hroot, setObject, if_pos hroot, parentObject, if_pos hroot]
    rfl
  · rw [parentObject, if_neg hroot, setObject, if_neg hroot, objectGet_add_self]

theorem findObject_set_self (hkey : key ≠ "") (hval : notNull (some val) = some val) :
    prvConfigFindObject (some (setObject runtime parentKey key val)) parentKey key = some val := by
  simp only [prvConfigFindObject, parentObject_set, if_neg hkey, objectGet_add_self, hval]

/-- The objects of other parents stay. -/
theorem parentObject_set_other {p : Option String} (hparent : p.getD "" ≠ parentKey.getD "")
    (hinto : parentKey.getD "" = "" → p.getD "" ≠ key) (hroot : p.getD "" ≠ "") :
    parentObject (setObject runtime parentKey key val) p = parentObject runtime p := by
  rw [parentObject, if_neg hroot, parentObject, if_neg hroot, setObject]
  by_cases htop : parentKey.getD "" = ""
  · rw [if_pos htop, objectGet_add_other _ _ (Ne.symm (hinto htop))]
  · rw [if_neg htop, objectGet_add_other _ _ (Ne.symm hparent)]

end Set

/-- **A key that is not touched is found as before**: in the tree that has been set there
    is under it what there was. -/
theorem findObject_set_other (runtime : Fields) (c : Setter) {p : Option String} {k : String}
    (hk : k ≠ "") (h : ¬ Touched c p k) :
    prvConfigFindObject (some (setObject runtime c.parentKey c.key c.val)) p k
      = prvConfigFindObject (some runtime) p k := by
  rw [Touched, not_or, not_or] at h
  obtain ⟨hself, htop, hinto⟩ := h
  by_cases hsame : p.getD "" = c.parentKey.getD ""
  · -- the same parent: another key of the same object, which is empty if it is new
    have hkey : c.key ≠ k := fun heq => hself ⟨hsame, heq.symm⟩
    have hparent : ∀ tree, parentObject tree p = parentObject tree c.parentKey := by
      intro tree
      rw [parentObject, parentObject, hsame]
    simp only [prvConfigFindObject, hparent, parentObject_set, if_neg hk,
      objectGet_add_other _ _ hkey]
    cases parentObject runtime c.parentKey with
    | none => rfl
    | some object => rfl
  · by_cases hroot : p.getD "" = ""
    · -- the root: the setter's parent is another key of it
      have hpar : c.parentKey.getD "" ≠ "" := fun heq => hsame (hroot.trans heq.symm)
      have hkey : c.parentKey.getD "" ≠ k := fun heq => htop ⟨hroot, heq.symm⟩
      have hobject : ∀ tree, parentObject tree p = some tree := fun tree => if_pos hroot
      simp only [prvConfigFindObject, hobject, if_neg hk, setObject, if_neg hpar,
        objectGet_add_other _ _ hkey]
    · have hother : parentObject (setObject runtime c.parentKey c.key c.val) p
          = parentObject runtime p :=
        parentObject_set_other runtime hsame (fun htop' heq => hinto ⟨htop', heq⟩) hroot
      simp only [prvConfigFindObject, hother]

theorem findEither_call (base runtime : Fields) (disk : Disk) (c : Setter) (p : Option String)
    (k : String) : findEither (call (⟨base, some runtime⟩, disk) c).1 p k
      = (prvConfigFindObject (some (setObject runtime c.parentKey c.key c.val)) p k).or
        (prvConfigFindObject base p k) := by
  rw [call_eq]
  rfl

/-- **Set, then get**: for every base and runtime tree and every call of a setter with a
    key, the getter of its type returns the value and the other getters fail; and for every
    key that is not on the way, all three getters return what they did before. -/
theorem set_then_get (base runtime : Fields) (disk : Disk) (c : Setter) (hkey : c.key ≠ "")
    (hfits : Fits c) :
    readings (call (⟨base, some runtime⟩, disk) c).1 c.parentKey c.key = expected c ∧
    ∀ p k, k ≠ "" → ¬ Touched c p k →
      readings (call (⟨base, some runtime⟩, disk) c).1 p k = readings ⟨base, some runtime⟩ p k := by
  constructor
  · rw [readings_eq, findEither_call,
      findObject_set_self runtime hkey (val_notNull c), Option.some_or]
    cases c with
    | string p k val => rfl
    | boolean p k val => rfl
    | integer p k val =>
        obtain ⟨hlo, hhi⟩ := hfits
        show Readings.mk none (some (jsonObjectGetInt val)) none = _
        rw [jsonObjectGetInt_of_fits hlo hhi]
        rfl
  · intro p k hk hother
    rw [readings_eq, readings_eq, findEither_call, findObject_set_other runtime c hk hother]
    rfl

/-- A value that is shadowed: the runtime tree gets an object in the place of a string, and
    the base's object stays in sight around the new key. -/
theorem set_then_get_nested :
    let base : Fields := [("p", .object [("k", .int 1), ("l", .int 2)])]
    let after := (call (⟨base, some [("p", .string "x")]⟩, fun _ => none)
      (.boolean (some "p") "k" true)).1
    readings after (some "p") "k" = ⟨none, none, some true⟩ ∧
      readings after (some "p") "l" = ⟨none, some 2, none⟩ := by
  intro base after
  have h := set_then_get base [("p", .string "x")] (fun _ => none)
    (.boolean (some "p") "k" true) (by decide) trivial
  refine ⟨h.1, (h.2 (some "p") "l" (by decide) ?_).trans rfl⟩
  rintro (⟨-, hkey⟩ | ⟨hroot, -⟩ | ⟨hroot, -⟩)
  · exact absurd hkey (by decide)
  · exact absurd hroot (by decide)
  · exact absurd hroot (by decide)

/-! ## A flag of `ticosctl` -/

/-- `ticos_set_runtime_bool_and_reload`, without its messages: the return value, and the
    handle and the files afterwards.  `root` is `getuid() == 0`, `restarted` what
    `ticosd_restart_service_if_running` answers. -/
def ticosSetRuntimeBoolAndReload (root restarted : Bool) (config : TicosdConfig) (disk : Disk)
    (configKey : String) (value : Bool) : Int × (TicosdConfig × Disk) :=
  if ticosdConfigGetBoolean config (some "") configKey = some value then (0, (config, disk))
  else
    (if root && !restarted then -1 else 0,
      ticosdConfigSetBoolean config disk (some "") configKey value)

/-- The flag reads back as it was asked for, whether it had to be set or not. -/
theorem flag_reads_back (root restarted : Bool) (base runtime : Fields) (disk : Disk)
    {configKey : String} (hkey : configKey ≠ "") (value : Bool) :
    ticosdConfigGetBoolean (ticosSetRuntimeBoolAndReload root restarted ⟨base, some runtime⟩ disk
      configKey value).2.1 (some "") configKey = some value := by
  rw [ticosSetRuntimeBoolAndReload]
  by_cases halready : ticosdConfigGetBoolean ⟨base, some runtime⟩ (some "") configKey = some value
  · rw [if_pos halready]
    exact halready
  · rw [if_neg halready]
    have hself : findEither (call (⟨base, some runtime⟩, disk)
        (.boolean (some "") configKey value)).1 (some "") configKey = some (.boolean value) := by
      rw [findEither_call]
      exact congrArg (Option.or · _) (findObject_set_self runtime hkey rfl)
    show (match findEither (call (⟨base, some runtime⟩, disk)
        (.boolean (some "") configKey value)).1 (some "") configKey with
      | some (.boolean val) => some val
      | _ => none) = some value
    rw [hself]

end ConfigLookup
