import Mathlib

/-! # Storage limits — how large a core file may become

    `prv_check_for_available_space` of `coredump.c`, over the helpers of `disk.c`.
    Three settings limit a core file: a headroom that has to stay free on the file
    system, a size that the folder of the core files may have, and a size of one
    file; a setting of 0 is no limit.  The function starts each limit that it does
    not have at the greatest `size_t`, but for the size of one file, which stays
    at 0 and wins every minimum. -/

namespace StorageLimits

/-! ## `disk.c` -/

/-- The fields of `struct statfs` that are looked at. -/
structure Statfs where
  bsize : Nat
  bfree : Nat
  bavail : Nat

/-- What `statfs` and `nftw` find for the folder of the core files: `none` is a
    failure. -/
structure Disk where
  statfs : Option Statfs
  fileSizes : Option (List Nat)

/-- `ticosd_get_free_space`. -/
def ticosdGetFreeSpace (disk : Disk) (privileged : Bool) : Nat :=
  match disk.statfs with
  | none => 0
  | some buf =>
      if privileged then buf.bsize * buf.bfree % 2 ^ 64 else buf.bsize * buf.bavail % 2 ^ 64

/-- `ticosd_get_folder_size`. -/
def ticosdGetFolderSize (disk : Disk) : Nat :=
  match disk.fileSizes with
  | none => 0
  | some sizes => sizes.foldl (fun sum size => (sum + size) % 2 ^ 64) 0

theorem freeSpace_lt (disk : Disk) (privileged : Bool) :
    ticosdGetFreeSpace disk privileged < 2 ^ 64 := by
  rw [ticosdGetFreeSpace]
  split
  · decide
  · split
    · exact Nat.mod_lt _ (by decide)
    · exact Nat.mod_lt _ (by decide)

/-! ## `prv_check_for_available_space` -/

/-- The values of `"coredump_plugin"`, as `ticosd_get_integer` returns them: `none` if
    there is no integer under the key. -/
abbrev Settings := String → Option Int

/-- A `size_t` that is 0 before `ticosd_get_integer` is handed a pointer to it, cast to
    `int *`: on a little-endian machine the value goes to its low half. -/
def intoSize (value : Option Int) : Nat :=
  match value with
  | none => 0
  | some val => (val % 2 ^ 32).toNat

/-- `prv_check_for_available_space`. -/
def prvCheckForAvailableSpace (settings : Settings) (disk : Disk) : Nat :=
  let minHeadroom := intoSize (settings "storage_min_headroom_kib")
  let maxUsage := intoSize (settings "storage_max_usage_kib")
  let maxSize := intoSize (settings "coredump_max_size_kib")
  if minHeadroom = 0 ∧ maxUsage = 0 ∧ maxSize = 0 then ticosdGetFreeSpace disk false
  else
    let minHeadroom := minHeadroom * 1024 % 2 ^ 64
    let maxUsage := maxUsage * 1024 % 2 ^ 64
    let maxSize := maxSize * 1024 % 2 ^ 64
    let free := ticosdGetFreeSpace disk true
    let used := ticosdGetFolderSize disk
    if minHeadroom ≠ 0 ∧ free ≤ minHeadroom then 0
    else
      let headroomDelta := if minHeadroom ≠ 0 then free - minHeadroom else 2 ^ 64 - 1
      if maxUsage ≠ 0 ∧ used ≥ maxUsage then 0
      else
        let usageDelta := if maxUsage ≠ 0 then maxUsage - used else 2 ^ 64 - 1
        min (min headroomDelta usageDelta) maxSize

/-! ## What the limits are for -/

/-- Three limits in bytes, each of them or none. -/
structure Limits where
  headroom : Option Nat
  usage : Option Nat
  size : Option Nat

/-- A setting in KiB; 0, and no setting, is no limit. -/
def limitOf (value : Option Int) : Option Nat :=
  match value with
  | none => none
  | some val => if val = 0 then none else some (val.toNat * 1024)

def limitsOf (settings : Settings) : Limits where
  headroom := limitOf (settings "storage_min_headroom_kib")
  usage := limitOf (settings "storage_max_usage_kib")
  size := limitOf (settings "coredump_max_size_kib")

/-- The headroom or the usage limit is reached already. -/
def Limits.Reached (limits : Limits) (disk : Disk) : Prop :=
  (∃ h ∈ limits.headroom, ticosdGetFreeSpace disk true ≤ h) ∨
    ∃ u ∈ limits.usage, u ≤ ticosdGetFolderSize disk

instance (limits : Limits) (disk : Disk) : Decidable (limits.Reached disk) :=
  inferInstanceAs (Decidable (_ ∨ _))

/-- What each configured limit leaves. -/
def Limits.rooms (limits : Limits) (disk : Disk) : List Nat :=
  (limits.headroom.map (ticosdGetFreeSpace disk true - ·)).toList
    ++ (limits.usage.map (· - ticosdGetFolderSize disk)).toList ++ limits.size.toList

/-- The room is 0 if a limit is reached, else the minimum over the configured limits;
    without a limit it is the free space. -/
structure Limits.IsRoom (limits : Limits) (disk : Disk) (room : Nat) : Prop where
  reached : limits.Reached disk → room = 0
  least : ¬limits.Reached disk → limits.rooms disk ≠ [] → (limits.rooms disk).min? = some room
  free : limits.rooms disk = [] → room = ticosdGetFreeSpace disk false

/-! ## When the function computes it -/

/-- A setting that is an `int` and not negative. -/
def IsSetting (value : Option Int) : Prop := ∀ val ∈ value, 0 ≤ val ∧ val < 2 ^ 31

instance (value : Option Int) : Decidable (IsSetting value) :=
  inferInstanceAs (Decidable (∀ val ∈ value, 0 ≤ val ∧ val < 2 ^ 31))

/-- A setting is read as it is, and its limit in bytes does not overflow. -/
theorem intoSize_bytes {value : Option Int} (h : IsSetting value) :
    intoSize value * 1024 % 2 ^ 64 = (limitOf value).getD 0 := by
  cases value with
  | none => rfl
  | some val =>
      obtain ⟨hlo, hhi⟩ := h val rfl
      rw [intoSize, limitOf, Int.emod_eq_of_lt hlo (by omega), Nat.mod_eq_of_lt (by omega)]
      by_cases hzero : val = 0
      · rw [if_pos hzero, hzero]
        rfl
      · rw [if_neg hzero, Option.getD_some]

theorem intoSize_eq_zero {value : Option Int} (h : IsSetting value) :
    intoSize value = 0 ↔ limitOf value = none := by
  cases value with
  | none => exact iff_of_true rfl rfl
  | some val =>
      obtain ⟨hlo, hhi⟩ := h val rfl
      rw [intoSize, limitOf, Int.emod_eq_of_lt hlo (by omega)]
      by_cases hzero : val = 0
      · rw [if_pos hzero, hzero]
        exact iff_of_true rfl rfl
      · rw [if_neg hzero]
        exact iff_of_false (by omega) (fun hno => nomatch hno)

theorem limitOf_range {value : Option Int} (h : IsSetting value) {limit : Nat}
    (hlimit : limitOf value = some limit) : 0 < limit ∧ limit < 2 ^ 64 := by
  cases value with
  | none => exact nomatch hlimit
  | some val =>
      obtain ⟨hlo, hhi⟩ := h val rfl
      rw [limitOf] at hlimit
      by_cases hzero : val = 0
      · rw [if_pos hzero] at hlimit
        exact nomatch hlimit
      · rw [if_neg hzero] at hlimit
        have := Option.some.inj hlimit
        omega

/-- What the code computes from the limits in bytes, where a limit that it does not
    have is 0. -/
def Limits.computed (limits : Limits) (disk : Disk) : Nat :=
  if limits.headroom = none ∧ limits.usage = none ∧ limits.size = none then
    ticosdGetFreeSpace disk false
  else if limits.headroom.getD 0 ≠ 0 ∧ ticosdGetFreeSpace disk true ≤ limits.headroom.getD 0 then 0
  else if limits.usage.getD 0 ≠ 0 ∧ ticosdGetFolderSize disk ≥ limits.usage.getD 0 then 0
  else
    min (min
      (if limits.headroom.getD 0 ≠ 0 then
        ticosdGetFreeSpace disk true - limits.headroom.getD 0 else 2 ^ 64 - 1)
      (if limits.usage.getD 0 ≠ 0 then
        limits.usage.getD 0 - ticosdGetFolderSize disk else 2 ^ 64 - 1))
      (limits.size.getD 0)

theorem available_eq {settings : Settings} (h : ∀ key, IsSetting (settings key)) (disk : Disk) :
    prvCheckForAvailableSpace settings disk = (limitsOf settings).computed disk := by
  simp only [prvCheckForAvailableSpace, intoSize_bytes (h _), intoSize_eq_zero (h _)]
  rfl

/-- Every limit is a `size_t` other than 0. -/
structure Limits.Sizes (limits : Limits) : Prop where
  headroom : ∀ limit ∈ limits.headroom, 0 < limit ∧ limit < 2 ^ 64
  usage : ∀ limit ∈ limits.usage, 0 < limit ∧ limit < 2 ^ 64
  size : ∀ limit ∈ limits.size, 0 < limit ∧ limit < 2 ^ 64

theorem limitsOf_sizes {settings : Settings} (h : ∀ key, IsSetting (settings key)) :
    (limitsOf settings).Sizes :=
  ⟨fun _ hlimit => limitOf_range (h _) hlimit, fun _ hlimit => limitOf_range (h _) hlimit,
    fun _ hlimit => limitOf_range (h _) hlimit⟩

variable {limits : Limits} {disk : Disk}

/-- A limit that is reached leaves nothing. -/
theorem computed_reached (hpos : limits.Sizes) (h : limits.Reached disk) :
    limits.computed disk = 0 := by
  rcases h with ⟨limit, hlimit, hle⟩ | ⟨limit, hlimit, hle⟩
  · have hlt := hpos.headroom limit hlimit
    rw [Option.mem_def] at hlimit
    rw [Limits.computed, hlimit, if_neg (fun hno => nomatch hno.1), Option.getD_some,
      if_pos ⟨by omega, hle⟩]
  · have hlt := hpos.usage limit hlimit
    rw [Option.mem_def] at hlimit
    rw [Limits.computed, hlimit, if_neg (fun hno => nomatch hno.2.1), Option.getD_some,
      if_pos (c := limit ≠ 0 ∧ _) ⟨by omega, hle⟩, ite_self]

/-- What is left of a limit that is not reached. -/
theorem room_pos (h : ¬limits.Reached disk) (hsize : limits.size = none) :
    ∀ room ∈ limits.rooms disk, 0 < room := by
  intro room hroom
  simp only [Limits.rooms, hsize, Option.toList_none, List.append_nil, List.mem_append,
    Option.mem_toList, Option.map_eq_some_iff] at hroom
  rcases hroom with ⟨limit, hlimit, rfl⟩ | ⟨limit, hlimit, rfl⟩
  · have : ¬ticosdGetFreeSpace disk true ≤ limit := fun hle => h (Or.inl ⟨limit, hlimit, hle⟩)
    omega
  · have : ¬limit ≤ ticosdGetFolderSize disk := fun hle => h (Or.inr ⟨limit, hlimit, hle⟩)
    omega

/-- Without a limit on the size of one file, another limit leaves nothing. -/
theorem computed_no_size (hsize : limits.size = none)
    (hsome : ¬(limits.headroom = none ∧ limits.usage = none)) : limits.computed disk = 0 := by
  rw [Limits.computed, hsize, if_neg (fun h => hsome ⟨h.1, h.2.1⟩), Option.getD_none, Nat.min_zero,
    ite_self, ite_self]

/-- With a limit on it, the least of the rooms is computed. -/
theorem computed_size {size : Nat} (hsize : limits.size = some size) (hpos : limits.Sizes)
    (h : ¬limits.Reached disk) : (limits.rooms disk).min? = some (limits.computed disk) := by
  have hfree := freeSpace_lt disk true
  have hheadroom : ∀ limit ∈ limits.headroom, ¬ticosdGetFreeSpace disk true ≤ limit :=
    fun limit hlimit hle => h (Or.inl ⟨limit, hlimit, hle⟩)
  have husage : ∀ limit ∈ limits.usage, ¬limit ≤ ticosdGetFolderSize disk :=
    fun limit hlimit hle => h (Or.inr ⟨limit, hlimit, hle⟩)
  rw [Limits.computed, Limits.rooms, hsize, if_neg (fun hno => nomatch hno.2.2),
    Option.getD_some]
  have hmax := hpos.size size hsize
  -- one case for each choice of the other two limits
  cases hh : limits.headroom with
  | none =>
      cases hu : limits.usage with
      | none =>
          simp only [Option.map_none, Option.toList_none, Option.toList_some, List.nil_append,
            List.min?_singleton, Option.getD_none, ne_eq, not_true_eq_false, false_and, if_false]
          rw [Nat.min_eq_right (by omega)]
      | some usage =>
          have hlt := husage usage hu
          have hrange := hpos.usage usage hu
          simp [show usage ≠ 0 by omega, hlt]
          omega
  | some headroom =>
      have hlt := hheadroom headroom hh
      have hrange := hpos.headroom headroom hh
      cases hu : limits.usage with
      | none =>
          simp [show headroom ≠ 0 by omega, hlt]
          omega
      | some usage =>
          have hlt' := husage usage hu
          have hrange' := hpos.usage usage hu
          simp [show headroom ≠ 0 by omega, show usage ≠ 0 by omega, hlt, hlt']

/-- **When the room is the one that the limits leave.** -/
theorem computed_isRoom_iff (hpos : limits.Sizes) :
    limits.IsRoom disk (limits.computed disk) ↔
      (limits.size = none → limits.Reached disk ∨ (limits.headroom = none ∧ limits.usage = none))
    := by
  constructor
  · intro hroom hsize
    by_contra hno
    obtain ⟨hreached, hsome⟩ := not_or.mp hno
    have hrooms : limits.rooms disk ≠ [] := by
      intro hnil
      simp only [Limits.rooms, List.append_eq_nil_iff, Option.toList_eq_nil_iff,
        Option.map_eq_none_iff] at hnil
      exact hsome hnil.1
    have hleast := hroom.least hreached hrooms
    rw [computed_no_size hsize hsome] at hleast
    exact absurd (room_pos hreached hsize 0 (List.min?_mem hleast)) (Nat.lt_irrefl 0)
  · intro hcond
    refine ⟨computed_reached hpos, ?_, ?_⟩
    · intro hreached hrooms
      cases hsize : limits.size with
      | some size => exact computed_size hsize hpos hreached
      | none =>
          obtain ⟨hheadroom, husage⟩ := (hcond hsize).resolve_left hreached
          exact absurd (by rw [Limits.rooms, hheadroom, husage, hsize]; rfl) hrooms
    · intro hnil
      simp only [Limits.rooms, List.append_eq_nil_iff, Option.toList_eq_nil_iff,
        Option.map_eq_none_iff] at hnil
      rw [Limits.computed, if_pos ⟨hnil.1.1, hnil.1.2, hnil.2⟩]

/-- **Storage limits**: for all settings that are not negative and any disk, the function
    returns 0 if a configured limit is reached, else the minimum over the configured
    limits, and without one the free space, if and only if a limit on the size of one
    file is configured, a limit is reached, or there is no limit. -/
theorem available_isRoom_iff {settings : Settings} (h : ∀ key, IsSetting (settings key))
    (disk : Disk) :
    (limitsOf settings).IsRoom disk (prvCheckForAvailableSpace settings disk) ↔
      ((limitsOf settings).size = none → (limitsOf settings).Reached disk ∨
        ((limitsOf settings).headroom = none ∧ (limitsOf settings).usage = none)) := by
  rw [available_eq h]
  exact computed_isRoom_iff (limitsOf_sizes h)

/-- The defaults of `builtin.conf`: a headroom of 10 MiB, no limit on the folder, and
    96000 KiB for one file. -/
def builtinSettings : Settings
  | "storage_min_headroom_kib" => some 10240
  | "storage_max_usage_kib" => some 0
  | "coredump_max_size_kib" => some 96000
  | _ => none

/-- One GiB, half of it free, and a folder of two files. -/
def halfFull : Disk where
  statfs := some ⟨4096, 131072, 120000⟩
  fileSizes := some [4096, 500000]

example : prvCheckForAvailableSpace builtinSettings halfFull = 98304000 := by decide +kernel

theorem builtinSettings_ok : ∀ key, IsSetting (builtinSettings key) := by
  intro key
  unfold builtinSettings
  split
  · decide
  · decide
  · decide
  · exact fun val hval => nomatch hval

theorem available_isRoom_iff_builtin :
    (limitsOf builtinSettings).IsRoom halfFull
        (prvCheckForAvailableSpace builtinSettings halfFull) ↔
      ((limitsOf builtinSettings).size = none → (limitsOf builtinSettings).Reached halfFull ∨
        ((limitsOf builtinSettings).headroom = none ∧ (limitsOf builtinSettings).usage = none)) :=
  available_isRoom_iff builtinSettings_ok halfFull

/-- The headroom of `builtin.conf`, and no other limit. -/
def headroomAlone : Settings
  | "storage_min_headroom_kib" => some 10240
  | "coredump_max_size_kib" => some 0
  | _ => none

/-- Half a GiB is free, and no core file is written. -/
theorem headroom_alone_leaves_nothing :
    ¬(limitsOf headroomAlone).IsRoom halfFull
      (prvCheckForAvailableSpace headroomAlone halfFull) := by
  intro hroom
  have hleast := hroom.least (by decide +kernel) (by decide +kernel)
  exact absurd hleast (by decide +kernel)

end StorageLimits
