import Ticosd.ConfigMerge
import Ticosd.GuardedRun

/-! # The runtime tree of `config.c` — settings that should survive a restart

    `ticosd_config_init` builds two trees: the base configuration, and the runtime tree
    that it loads from `runtime.conf` in the data directory.  Every setter changes the
    runtime tree and writes it back.

    Writer and loader compute the file's name by one function.  It asks for `data_dir` in
    the runtime tree before the base; the loader calls it while there is no runtime tree
    yet, so only the writer sees what that tree says.  `writes_where_loaded_iff` says when
    they still agree: the runtime tree does not name a data directory of its own. -/

namespace ConfigRuntime

open ConfigMerge

/-- The tree in a file, by path; `none` is a file that is not there or that json-c does
    not parse. -/
abbrev Disk := String → Option Fields

/-- `struct TicosdConfig`; `none` is the NULL of a tree that is not there yet. -/
structure TicosdConfig where
  base : Fields
  runtime : Option Fields

/-! ## Lookups -/

/-- A JSON `null` is the null pointer. -/
def notNull : Option Json → Option Json
  | some .null => none
  | object => object

/-- The tree that a parent key selects; no key, or an empty one, selects the root. -/
def parentObject (tree : Fields) (parentKey : Option String) : Option Fields :=
  if parentKey.getD "" = "" then some tree
  else match objectGet tree (parentKey.getD "") with
    | some (.object fields) => some fields
    | _ => none

/-- `prv_config_find_object`. -/
def prvConfigFindObject (tree : Option Fields) (parentKey : Option String) (key : String) :
    Option Json :=
  match tree with
  | none => none
  | some tree =>
      match parentObject tree parentKey with
      | none => none
      | some object => if key = "" then some (.object object) else notNull (objectGet object key)

/-- `ticosd_config_get_string`. -/
def ticosdConfigGetString (handle : TicosdConfig) (parentKey : Option String) (key : String) :
    Option String :=
  match (prvConfigFindObject handle.runtime parentKey key).or
      (prvConfigFindObject handle.base parentKey key) with
  | some (.string val) => some val
  | _ => none

/-- The string of a `char *`: it ends before the first NUL. -/
def cText (s : String) : String := String.ofList (s.toList.takeWhile (fun c => c ≠ '\x00'))

/-- `ticosd_config_generate_rw_filename`. -/
def ticosdConfigGenerateRwFilename (handle : TicosdConfig) (filename : String) : Option String :=
  match ticosdConfigGetString handle (some "") "data_dir" with
  | none => none
  | some dataDir => if cText dataDir = "" then none else some (cText dataDir ++ "/" ++ filename)

/-! ## Start and setters -/

/-- `ticosd_config_init` with the user file `file`. -/
def ticosdConfigInit (builtinConf : Fields) (file : Option Fields) (disk : Disk) : TicosdConfig :=
  let handle : TicosdConfig := ⟨ticosdConfigInitBase builtinConf file, none⟩
  match ticosdConfigGenerateRwFilename handle "runtime.conf" with
  | none => { handle with runtime := some [] }
  | some runtimePath => { handle with runtime := some ((disk runtimePath).getD []) }

/-- `prv_config_write_config`, with a write that succeeds. -/
def prvConfigWriteConfig (handle : TicosdConfig) (disk : Disk) : Disk :=
  match ticosdConfigGenerateRwFilename handle "runtime.conf" with
  | none => disk
  | some runtimePath => fun path => if path = runtimePath then handle.runtime else disk path

/-- The runtime tree after `prv_config_set_object`: an object is put under the parent key
    if there is none, and the value goes into it. -/
def setObject (runtime : Fields) (parentKey : Option String) (key : String) (val : Json) :
    Fields :=
  if parentKey.getD "" = "" then objectAdd runtime key val
  else
    objectAdd runtime (parentKey.getD "")
      (.object (objectAdd ((parentObject runtime parentKey).getD []) key val))

/-- `prv_config_set_object`. -/
def prvConfigSetObject (handle : TicosdConfig) (disk : Disk) (parentKey : Option String)
    (key : String) (val : Json) : TicosdConfig × Disk :=
  let handle := { handle with runtime := handle.runtime.map (setObject · parentKey key val) }
  (handle, prvConfigWriteConfig handle disk)

/-- `ticosd_config_set_string`. -/
def ticosdConfigSetString (handle : TicosdConfig) (disk : Disk) (parentKey : Option String)
    (key val : String) : TicosdConfig × Disk :=
  prvConfigSetObject handle disk parentKey key (.string val)

/-- `ticosd_config_set_integer`. -/
def ticosdConfigSetInteger (handle : TicosdConfig) (disk : Disk) (parentKey : Option String)
    (key : String) (val : Int) : TicosdConfig × Disk :=
  prvConfigSetObject handle disk parentKey key (.int val)

/-- `ticosd_config_set_boolean`. -/
def ticosdConfigSetBoolean (handle : TicosdConfig) (disk : Disk) (parentKey : Option String)
    (key : String) (val : Bool) : TicosdConfig × Disk :=
  prvConfigSetObject handle disk parentKey key (.boolean val)

/-- A call of a setter. -/
inductive Setter where
  | string (parentKey : Option String) (key val : String)
  | integer (parentKey : Option String) (key : String) (val : Int)
  | boolean (parentKey : Option String) (key : String) (val : Bool)

/-- The handle and the files after the call. -/
def call (s : TicosdConfig × Disk) : Setter → TicosdConfig × Disk
  | .string parentKey key val => ticosdConfigSetString s.1 s.2 parentKey key val
  | .integer parentKey key val => ticosdConfigSetInteger s.1 s.2 parentKey key val
  | .boolean parentKey key val => ticosdConfigSetBoolean s.1 s.2 parentKey key val

/-- The three arguments of a call. -/
def Setter.parentKey : Setter → Option String
  | .string p _ _ => p
  | .integer p _ _ => p
  | .boolean p _ _ => p

def Setter.key : Setter → String
  | .string _ k _ => k
  | .integer _ k _ => k
  | .boolean _ k _ => k

def Setter.val : Setter → Json
  | .string _ _ v => .string v
  | .integer _ _ v => .int v
  | .boolean _ _ v => .boolean v

theorem call_eq (s : TicosdConfig × Disk) (c : Setter) :
    call s c = prvConfigSetObject s.1 s.2 c.parentKey c.key c.val := by
  cases c <;> rfl

/-! ## The name of the file -/

/-- What a tree has under `data_dir`. -/
def dataDir (tree : Fields) : Option Json := notNull (objectGet tree "data_dir")

/-- The value names the directory `d`. -/
def Names (d : String) : Option Json → Prop
  | some (.string e) => cText e = cText d
  | _ => False

/-- The runtime tree leaves the data directory `d` of the base alone: it has none of its
    own, or the same. -/
def LeavesDataDir (d : String) (runtime : Fields) : Prop :=
  dataDir runtime = none ∨ Names d (dataDir runtime)

instance (d : String) : ∀ val, Decidable (Names d val)
  | some (.string e) => inferInstanceAs (Decidable (cText e = cText d))
  | none => inferInstanceAs (Decidable False)
  | some .null => inferInstanceAs (Decidable False)
  | some (.boolean _) => inferInstanceAs (Decidable False)
  | some (.int _) => inferInstanceAs (Decidable False)
  | some (.double _) => inferInstanceAs (Decidable False)
  | some (.array _) => inferInstanceAs (Decidable False)
  | some (.object _) => inferInstanceAs (Decidable False)

theorem findObject_dataDir (tree : Option Fields) :
    prvConfigFindObject tree (some "") "data_dir" = tree.bind dataDir := by
  cases tree with
  | none => rfl
  | some tree => rfl

/-- The path of `filename` in the directory that a value names. -/
def pathIn (filename : String) : Option Json → Option String
  | some (.string d) => if cText d = "" then none else some (cText d ++ "/" ++ filename)
  | _ => none

theorem generateRwFilename_eq (handle : TicosdConfig) (filename : String) :
    ticosdConfigGenerateRwFilename handle filename
      = pathIn filename ((handle.runtime.bind dataDir).or (dataDir handle.base)) := by
  rw [ticosdConfigGenerateRwFilename, ticosdConfigGetString, findObject_dataDir,
    findObject_dataDir, Option.bind_some]
  generalize (handle.runtime.bind dataDir).or (dataDir handle.base) = val
  cases val with
  | none => rfl
  | some v => cases v <;> rfl

/-- Two values give the path in the directory `d` only if both name it. -/
theorem pathIn_eq_iff {d filename : String} (hd : cText d ≠ "") (val : Option Json) :
    pathIn filename val = some (cText d ++ "/" ++ filename) ↔ Names d val := by
  cases val with
  | none => exact ⟨(fun h => nomatch h), fun h => h.elim⟩
  | some v =>
      cases v with
      | string e =>
          rw [pathIn, Names]
          constructor
          · intro h
            split at h
            · exact nomatch h
            · have := Option.some.inj h
              rw [String.append_assoc, String.append_assoc] at this
              exact (String.append_left_inj _).mp this
          · intro h
            rw [h, if_neg hd]
      | _ => exact ⟨(fun h => nomatch h), fun h => h.elim⟩

section Base

variable {base : Fields} {d : String}

/-- The loader's path. -/
theorem loaded_path (hbase : objectGet base "data_dir" = some (.string d)) (hd : cText d ≠ "") :
    ticosdConfigGenerateRwFilename ⟨base, none⟩ "runtime.conf"
      = some (cText d ++ "/" ++ "runtime.conf") := by
  have hdata : dataDir base = some (.string d) := by
    rw [dataDir, hbase]
    rfl
  rw [generateRwFilename_eq, hdata]
  exact if_neg hd

/-- **The writer uses the loader's path exactly when the runtime tree leaves the data
    directory alone.** -/
theorem writes_where_loaded_iff (hbase : objectGet base "data_dir" = some (.string d))
    (hd : cText d ≠ "") (runtime : Fields) :
    ticosdConfigGenerateRwFilename ⟨base, some runtime⟩ "runtime.conf"
        = ticosdConfigGenerateRwFilename ⟨base, none⟩ "runtime.conf" ↔
      LeavesDataDir d runtime := by
  have hdata : dataDir base = some (.string d) := by
    rw [dataDir, hbase]
    rfl
  rw [loaded_path hbase hd, generateRwFilename_eq, pathIn_eq_iff hd, hdata, Option.bind_some,
    LeavesDataDir]
  cases dataDir runtime with
  | none => exact ⟨fun _ => Or.inl rfl, fun _ => rfl⟩
  | some v => exact ⟨Or.inr, fun h => h.resolve_left (fun hn => nomatch hn)⟩

/-! ## One call -/

/-- The call leaves a runtime tree that leaves the data directory alone: it sets it to what
    the base has, or it sets something else in such a tree. -/
def KeepsDataDir (d : String) (runtime : Fields) (c : Setter) : Prop :=
  if c.parentKey.getD "" = "" then
    if c.key = "data_dir" then Names d (some c.val) else LeavesDataDir d runtime
  else c.parentKey.getD "" ≠ "data_dir" ∧ LeavesDataDir d runtime

/-- A value of a setter is not `null`. -/
theorem val_notNull (c : Setter) : notNull (some c.val) = some c.val := by
  cases c <;> rfl

/-- **The condition on the call is exact.** -/
theorem leavesDataDir_setObject_iff (runtime : Fields) (c : Setter) :
    LeavesDataDir d (setObject runtime c.parentKey c.key c.val) ↔ KeepsDataDir d runtime c := by
  have hother : ∀ {key : String} (val : Json), key ≠ "data_dir" →
      (LeavesDataDir d (objectAdd runtime key val) ↔ LeavesDataDir d runtime) := by
    intro key val hkey
    rw [LeavesDataDir, dataDir, objectGet_add_other _ _ hkey]
    rfl
  rw [setObject, KeepsDataDir]
  by_cases hroot : c.parentKey.getD "" = ""
  · rw [if_pos hroot, if_pos hroot]
    by_cases hkey : c.key = "data_dir"
    · rw [if_pos hkey, hkey, LeavesDataDir, dataDir, objectGet_add_self, val_notNull]
      exact ⟨fun h => h.resolve_left (fun hn => nomatch hn), Or.inr⟩
    · rw [if_neg hkey, hother _ hkey]
  · rw [if_neg hroot, if_neg hroot]
    by_cases hparent : c.parentKey.getD "" = "data_dir"
    · -- an object under `data_dir` names no directory
      rw [hparent, LeavesDataDir, dataDir, objectGet_add_self]
      exact ⟨fun h => (h.elim (fun hn => nomatch hn) (fun hn => hn.elim)),
        fun h => absurd rfl h.1⟩
    · rw [hother _ hparent]
      exact ⟨fun h => ⟨hparent, h⟩, fun h => h.2⟩

/-! ## Runs -/

/-- A state whose runtime tree is the one that a restart loads. -/
structure Saved (base : Fields) (builtinConf : Fields) (file : Option Fields)
    (s : TicosdConfig × Disk) : Prop where
  base_eq : s.1.base = base
  isObject : s.1.runtime.isSome
  reloads : ticosdConfigInit builtinConf file s.2 = s.1

variable {builtinConf : Fields} {file : Option Fields}

/-- What a restart loads. -/
theorem init_eq (hbase : objectGet (ticosdConfigInitBase builtinConf file) "data_dir"
      = some (.string d)) (hd : cText d ≠ "") (disk : Disk) :
    ticosdConfigInit builtinConf file disk = ⟨ticosdConfigInitBase builtinConf file,
      some ((disk (cText d ++ "/" ++ "runtime.conf")).getD [])⟩ := by
  simp only [ticosdConfigInit, loaded_path hbase hd]

/-- A call whose tree goes to the loader's file is reloaded. -/
theorem reloads_call (hbase : objectGet (ticosdConfigInitBase builtinConf file) "data_dir"
      = some (.string d)) (hd : cText d ≠ "") {runtime : Fields} {disk : Disk} {c : Setter}
    (hc : KeepsDataDir d runtime c) :
    ticosdConfigInit builtinConf file
        (call (⟨ticosdConfigInitBase builtinConf file, some runtime⟩, disk) c).2
      = (call (⟨ticosdConfigInitBase builtinConf file, some runtime⟩, disk) c).1 := by
  have hpath := (writes_where_loaded_iff hbase hd _).mpr
    ((leavesDataDir_setObject_iff runtime c).mpr hc)
  rw [loaded_path hbase hd] at hpath
  rw [init_eq hbase hd, call_eq]
  simp only [prvConfigSetObject, prvConfigWriteConfig, Option.map_some, hpath, if_true,
    Option.getD_some]

/-- What a call must meet in the state it is made in. -/
def CallOk (d : String) (s : TicosdConfig × Disk) (c : Setter) : Prop :=
  KeepsDataDir d (s.1.runtime.getD []) c

theorem saved_call (hbase : objectGet (ticosdConfigInitBase builtinConf file) "data_dir"
      = some (.string d)) (hd : cText d ≠ "") (s : TicosdConfig × Disk) (c : Setter)
    (hs : Saved (ticosdConfigInitBase builtinConf file) builtinConf file s)
    (hc : CallOk d s c) :
    Saved (ticosdConfigInitBase builtinConf file) builtinConf file (call s c) := by
  obtain ⟨⟨base, runtime⟩, disk⟩ := s
  obtain ⟨rfl, hobj, -⟩ := hs
  obtain ⟨runtime, rfl⟩ := Option.isSome_iff_exists.mp hobj
  refine ⟨?_, ?_, reloads_call hbase hd hc⟩
  · rw [call_eq]
    rfl
  · rw [call_eq]
    rfl

/-- The handle and the files at the first start. -/
def started (builtinConf : Fields) (file : Option Fields) (disk : Disk) : TicosdConfig × Disk :=
  (ticosdConfigInit builtinConf file disk, disk)

/-- **Runtime settings survive a restart**, as long as no call is made with a data directory
    in the runtime tree, or puts one there, that is not the base's.  In every state reached
    the condition on the next call is exact for the file that it writes. -/
theorem runtime_survives (builtinConf : Fields) (file : Option Fields) (disk : Disk) (d : String)
    (hbase : objectGet (ticosdConfigInitBase builtinConf file) "data_dir" = some (.string d))
    (hd : cText d ≠ "") (cs : List Setter)
    (hcs : GuardedRun.Along call (CallOk d) (started builtinConf file disk) cs) :
    ticosdConfigInit builtinConf file
        (GuardedRun.run call (started builtinConf file disk) cs).2
      = (GuardedRun.run call (started builtinConf file disk) cs).1 ∧
    ∀ c, ticosdConfigGenerateRwFilename
          (call (GuardedRun.run call (started builtinConf file disk) cs) c).1 "runtime.conf"
        = ticosdConfigGenerateRwFilename ⟨ticosdConfigInitBase builtinConf file, none⟩
          "runtime.conf" ↔
      CallOk d (GuardedRun.run call (started builtinConf file disk) cs) c := by
  have hstart : Saved (ticosdConfigInitBase builtinConf file) builtinConf file
      (started builtinConf file disk) := by
    have hinit := init_eq hbase hd disk
    refine ⟨?_, ?_, rfl⟩
    · rw [started, hinit]
    · rw [started, hinit]
      rfl
  have hsaved := GuardedRun.invariant (saved_call hbase hd) hstart hcs
  refine ⟨hsaved.reloads, fun c => ?_⟩
  generalize GuardedRun.run call (started builtinConf file disk) cs = s at hsaved ⊢
  obtain ⟨⟨base, runtime⟩, disk'⟩ := s
  obtain ⟨rfl, hobj, -⟩ := hsaved
  obtain ⟨runtime, rfl⟩ := Option.isSome_iff_exists.mp hobj
  rw [call_eq]
  exact (writes_where_loaded_iff hbase hd _).trans (leavesDataDir_setObject_iff runtime c)

end Base

/-! ## A tree with a data directory of its own -/

/-- A base configuration with a data directory. -/
def sampleConf : Fields := [("data_dir", .string "/data")]

/-- `ticosctl disable-data-collection`. -/
def disableDataCollection : Setter := .boolean (some "") "enable_data_collection" false

theorem runtime_survives_sample :
    ticosdConfigInit sampleConf none
        (GuardedRun.run call (started sampleConf none (fun _ => none))
          [disableDataCollection]).2
      = (GuardedRun.run call (started sampleConf none (fun _ => none))
          [disableDataCollection]).1 :=
  (runtime_survives sampleConf none (fun _ => none) "/data"
    (by simp only [ticosdConfigInitBase]; rfl) (by decide) [disableDataCollection]
    ⟨Or.inl rfl, trivial⟩).1

/-- The file `/data/runtime.conf` with a data directory of its own. -/
def overridden : Disk :=
  fun path => if path = "/data/runtime.conf" then some [("data_dir", .string "/tmp")] else none

/-- **The setting is written to `/tmp/runtime.conf`**, and a restart loads the old tree. -/
theorem disabled_setting_lost :
    ¬ (∀ (builtinConf : Fields) (file : Option Fields) (disk : Disk) (d : String),
        objectGet (ticosdConfigInitBase builtinConf file) "data_dir" = some (.string d) →
        cText d ≠ "" → ∀ cs,
        ticosdConfigInit builtinConf file
            (GuardedRun.run call (started builtinConf file disk) cs).2
          = (GuardedRun.run call (started builtinConf file disk) cs).1) ∧
      (call (started sampleConf none overridden) disableDataCollection).1.runtime
        = some [("data_dir", .string "/tmp"), ("enable_data_collection", .boolean false)] ∧
      (ticosdConfigInit sampleConf none
        (call (started sampleConf none overridden) disableDataCollection).2).runtime
        = some [("data_dir", .string "/tmp")] := by
  have hmem : (call (started sampleConf none overridden) disableDataCollection).1.runtime
      = some [("data_dir", .string "/tmp"), ("enable_data_collection", .boolean false)] := by
    rfl
  have hfile : (ticosdConfigInit sampleConf none
      (call (started sampleConf none overridden) disableDataCollection).2).runtime
      = some [("data_dir", .string "/tmp")] := by
    rfl
  refine ⟨fun h => ?_, hmem, hfile⟩
  have hsame := h sampleConf none overridden "/data" rfl (by decide) [disableDataCollection]
  have := congrArg TicosdConfig.runtime hsame
  rw [GuardedRun.run_cons, GuardedRun.run_nil, hmem, hfile] at this
  simp at this

end ConfigRuntime
