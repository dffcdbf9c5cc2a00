import Ticosd.CInt
import Ticosd.ConfigLookup
import Ticosd.QueueScan

/-! # The size of the queue — from the configuration to the file

    `ticosd_main` reads `queue_size_kib`, multiplies by 1024 and hands the product to
    `ticosd_queue_init`, which rounds it down to a word, checks the limits and falls back to
    1 MiB.  The check comes after the multiplication, and that is done in an `int`: a
    setting from `2 ^ 22` on may come back into the limits as a small size
    (`configured_size_iff`). -/

namespace QueueCreate

open QueueModel CInt ConfigMerge ConfigRuntime ConfigLookup

/-- The size that `ticosd_queue_init` settles on. -/
def initSize (size : Int) : Int :=
  if (prvCheckQueueSize size).1 then (prvCheckQueueSize size).2
  else 1024 * 1024

/-- `ticosd_main` up to the queue: a setting that is not there, or not an integer, leaves
    the 0 that `queue_size` starts with. -/
def mainQueueSize (config : TicosdConfig) : Int :=
  let queueSize := (ticosdConfigGetInteger config none "queue_size_kib").getD 0
  initSize (int32 (queueSize * 1024))

/-- A multiple of a word within the limits. -/
def WithinLimits (size : Int) : Prop := size % 4 = 0 ∧ 16 ≤ size ∧ size ≤ 2 ^ 30

/-- The size that is meant by a setting of `k` KiB. -/
def settingBytes (k : Int) : Int :=
  if 16 ≤ 1024 * k ∧ 1024 * k ≤ 2 ^ 30 then 1024 * k else 1024 * 1024

/-! ## The check -/

/-- `prv_check_queue_size` rounds towards zero. -/
theorem aligned_eq (size : Int) : (if size.tmod 4 ≠ 0 then size.tdiv 4 * 4 else size)
    = if 0 ≤ size then size / 4 * 4 else -(-size / 4 * 4) := by
  by_cases hpos : 0 ≤ size
  · rw [if_pos hpos, Int.tmod_eq_emod_of_nonneg hpos, Int.tdiv_eq_ediv_of_nonneg hpos]
    omega
  · have hneg : 0 ≤ -size := by omega
    have hdiv : size.tdiv 4 = -(-size / 4) := by
      rw [← Int.tdiv_eq_ediv_of_nonneg hneg, Int.neg_tdiv, neg_neg]
    have hmod : size.tmod 4 = -(-size % 4) := by
      rw [← Int.tmod_eq_emod_of_nonneg hneg, Int.neg_tmod, neg_neg]
    rw [if_neg hpos, hdiv, hmod]
    omega

/-- A size is rounded down, and kept if it is within the limits then. -/
theorem initSize_eq (size : Int) :
    initSize size = if 16 ≤ size ∧ size < 2 ^ 30 + 4 then size / 4 * 4 else 2 ^ 20 := by
  have hchecked : initSize size = if 16 ≤ (if 0 ≤ size then size / 4 * 4 else -(-size / 4 * 4)) ∧
      (if 0 ≤ size then size / 4 * 4 else -(-size / 4 * 4)) ≤ 2 ^ 30 then
        if 0 ≤ size then size / 4 * 4 else -(-size / 4 * 4)
      else 2 ^ 20 := by
    rw [initSize, prvCheckQueueSize, aligned_eq]
    generalize (if 0 ≤ size then size / 4 * 4 else -(-size / 4 * 4)) = aligned
    by_cases hmin : aligned < 16
    · have hout : ¬ (16 ≤ aligned ∧ aligned ≤ 2 ^ 30) := by omega
      rw [if_pos hmin, if_neg hout]
      rfl
    · by_cases hmax : aligned > 1024 * 1024 * 1024
      · have hout : ¬ (16 ≤ aligned ∧ aligned ≤ 2 ^ 30) := by omega
        rw [if_neg hmin, if_pos hmax, if_neg hout]
        rfl
      · have hin : 16 ≤ aligned ∧ aligned ≤ 2 ^ 30 := by omega
        rw [if_neg hmin, if_neg hmax, if_pos hin]
        rfl
  rw [hchecked]
  omega

/-- **Whatever size is asked for, the queue gets one within the limits.** -/
theorem initSize_within (size : Int) : WithinLimits (initSize size) := by
  rw [initSize_eq, WithinLimits]
  omega

/-- The size as the queue has it. -/
def checkedSize (size : Int) : QueueSize where
  bytes := (initSize size).toNat
  aligned := by
    obtain ⟨haligned, hmin, -⟩ := initSize_within size
    omega
  min := by
    obtain ⟨-, hmin, -⟩ := initSize_within size
    omega
  max := by
    obtain ⟨-, -, hmax⟩ := initSize_within size
    omega

/-- A queue that `ticosd_queue_init` returns has the size that it settled on. -/
theorem init_size {size : Int} {file : ByteStore.Mem} {q : TicosdQueue}
    (h : (ticosdQueueInit (checkedSize size) file).val = some q) :
    (q.size.bytes : Int) = initSize size := by
  obtain ⟨_, _, _, _, -, -, rfl⟩ := QueueScan.queueInit_some h
  obtain ⟨-, hmin, -⟩ := initSize_within size
  exact Int.toNat_of_nonneg (by omega)

/-! ## The setting -/

/-- A multiple of 1024 wraps as the factor does, ten bits earlier. -/
theorem int32_kib (k : Int) : int32 (k * 1024) = 1024 * Int.bmod k (2 ^ 22) := by
  rw [int32, Int.bmod_def, Int.bmod_def]
  norm_num only
  omega

theorem mainQueueSize_eq {config : TicosdConfig} {k : Int}
    (hk : findEither config none "queue_size_kib" = some (.int k)) :
    mainQueueSize config = initSize (1024 * Int.bmod (jsonObjectGetInt k) (2 ^ 22)) := by
  rw [mainQueueSize, ticosdConfigGetInteger, hk, ← int32_kib]
  rfl

/-- The setting is within the limits, or does not fit an `int` (then it is read as the next
    one that does), or what the product keeps of it is out of the limits too, or is 1 MiB
    by chance. -/
def Unwrapped (k : Int) : Prop :=
  (1 ≤ k ∧ k ≤ 2 ^ 20) ∨ (k < -2 ^ 31 ∨ 2 ^ 31 ≤ k) ∨
    (k % 2 ^ 22 = 0 ∨ 2 ^ 20 < k % 2 ^ 22) ∨ k % 2 ^ 22 = 1024

/-- **The configured size is respected exactly when the product does not wrap back into the
    limits**; and every size that `ticosd_queue_init` is called with ends within them. -/
theorem configured_size_iff {config : TicosdConfig} {k : Int}
    (hk : findEither config none "queue_size_kib" = some (.int k)) :
    (mainQueueSize config = settingBytes k ∧ ∀ size, WithinLimits (initSize size)) ↔
      Unwrapped k := by
  rw [and_iff_left initSize_within, mainQueueSize_eq hk, initSize_eq, settingBytes, Unwrapped,
    jsonObjectGetInt, Int.bmod_def]
  norm_num only
  omega

theorem configured_size_iff_default :
    mainQueueSize ⟨[("queue_size_kib", .int 1024)], some []⟩ = settingBytes 1024 ∧
      ∀ size, WithinLimits (initSize size) := by
  have hk : findEither ⟨[("queue_size_kib", .int 1024)], some []⟩ none "queue_size_kib"
      = some (.int 1024) := rfl
  exact (configured_size_iff hk).mpr (Or.inl ⟨by decide, by decide⟩)

/-- A setting of 4 GiB and 1 KiB makes a queue of 1 KiB. -/
theorem large_setting_wraps :
    mainQueueSize ⟨[("queue_size_kib", .int 4194305)], some []⟩ = 1024 ∧
      settingBytes 4194305 = 1024 * 1024 := by
  decide +kernel

end QueueCreate
