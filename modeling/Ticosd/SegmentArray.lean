import Ticosd.CInt
import Ticosd.CoreElfWriter
import Ticosd.GuardedRun

/-! # The segments of the writer — an array that grows

    `prv_alloc_next_segment` makes the array of segments 32 slots longer when it is full.
    The capacity is raised before `realloc` is asked, and stays raised when there is no
    memory: the next call finds room that has never been allocated.

    `Full k` is the state after `k` calls that all got a slot.  From it a call whose
    `realloc` fails must be the last one; and an `int` index has no slot for a segment
    number `2 ^ 31` (`along_iff`). -/

namespace SegmentArray

open CInt CoreElf CoreElfWriter

variable {σ : Type}

/-- The fields of `sTicosCoreElfWriter` for its segments.  `allocated` is the number of
    slots that `realloc` has given, and `slots` what has been stored at an index, inside
    the array or not. -/
structure Segments (σ : Type) where
  segmentsMax : Nat
  segmentsIdx : Int
  allocated : Nat
  slots : Int → Option (Segment σ)

/-- A call of `ticos_core_elf_writer_add_segment_with_buffer` or `.._with_callback`: the
    segment, and the answer of `realloc` in case it is asked. -/
structure Call (σ : Type) where
  segment : Segment σ
  realloc : Bool

/-- `ticos_core_elf_writer_init`. -/
def ticosCoreElfWriterInit : Segments σ := ⟨0, -1, 0, fun _ => none⟩

/-- `prv_alloc_next_segment`: the index of the slot, if there is one. -/
def prvAllocNextSegment (realloc : Bool) (w : Segments σ) : Option Int × Segments σ :=
  if w.segmentsIdx ≥ int32 (int32 w.segmentsMax - 1) then
    let segmentsMax := (w.segmentsMax + segmentsReallocStepSize) % 2 ^ 64
    if realloc = false then (none, { w with segmentsMax := segmentsMax })
    else
      (some (int32 (w.segmentsIdx + 1)), { w with
        segmentsMax := segmentsMax
        allocated := segmentsMax
        segmentsIdx := int32 (w.segmentsIdx + 1) })
  else (some (int32 (w.segmentsIdx + 1)), { w with segmentsIdx := int32 (w.segmentsIdx + 1) })

/-- The two functions that add a segment. -/
def addSegment (w : Segments σ) (c : Call σ) : Bool × Segments σ :=
  match prvAllocNextSegment c.realloc w with
  | (none, w) => (false, w)
  | (some i, w) => (true, { w with slots := Function.update w.slots i (some c.segment) })

/-- The segments `0` to `segments_idx`, as `ticos_core_elf_writer_write` goes over them. -/
def segmentList (w : Segments σ) : List (Option (Segment σ)) :=
  (List.range (w.segmentsIdx + 1).toNat).map fun i : Nat => w.slots i

/-- The writer after a call. -/
def step (w : Segments σ) (c : Call σ) : Segments σ := (addSegment w c).2

/-- The slot that a successful call fills is in the array that is allocated then; a failed
    call leaves the list alone. -/
def CallGood (w : Segments σ) (c : Call σ) : Prop :=
  match (prvAllocNextSegment c.realloc w).1 with
  | some i => 0 ≤ i ∧ i < (step w c).allocated
  | none => segmentList (step w c) = segmentList w

/-- The segments of the successful calls, in order. -/
def successful : Segments σ → List (Call σ) → List (Segment σ)
  | _, [] => []
  | w, c :: cs =>
      if (addSegment w c).1 then c.segment :: successful (step w c) cs
      else successful (step w c) cs

/-- The list survives the calls: each one is good, and in the end the list has the segments
    of the successful ones. -/
def Survives (cs : List (Call σ)) : Prop :=
  GuardedRun.Along step CallGood ticosCoreElfWriterInit cs ∧
    segmentList (GuardedRun.run step ticosCoreElfWriterInit cs)
      = (successful ticosCoreElfWriterInit cs).map some

/-! ## One call -/

/-- What a call can do. -/
theorem addSegment_cases (w : Segments σ) (c : Call σ) :
    (w.segmentsIdx ≥ int32 (int32 w.segmentsMax - 1) ∧ c.realloc = false ∧
      (prvAllocNextSegment c.realloc w).1 = none ∧
      addSegment w c = (false, { w with
        segmentsMax := (w.segmentsMax + segmentsReallocStepSize) % 2 ^ 64 })) ∨
    (w.segmentsIdx ≥ int32 (int32 w.segmentsMax - 1) ∧ c.realloc = true ∧
      (prvAllocNextSegment c.realloc w).1 = some (int32 (w.segmentsIdx + 1)) ∧
      addSegment w c = (true,
        { segmentsMax := (w.segmentsMax + segmentsReallocStepSize) % 2 ^ 64
          segmentsIdx := int32 (w.segmentsIdx + 1)
          allocated := (w.segmentsMax + segmentsReallocStepSize) % 2 ^ 64
          slots := Function.update w.slots (int32 (w.segmentsIdx + 1)) (some c.segment) })) ∨
    (w.segmentsIdx < int32 (int32 w.segmentsMax - 1) ∧
      (prvAllocNextSegment c.realloc w).1 = some (int32 (w.segmentsIdx + 1)) ∧
      addSegment w c = (true, { w with
        segmentsIdx := int32 (w.segmentsIdx + 1)
        slots := Function.update w.slots (int32 (w.segmentsIdx + 1)) (some c.segment) })) := by
  rw [addSegment, prvAllocNextSegment]
  by_cases hfull : w.segmentsIdx ≥ int32 (int32 w.segmentsMax - 1)
  · rw [if_pos hfull]
    cases c.realloc with
    | false => exact Or.inl ⟨hfull, rfl, rfl, rfl⟩
    | true => exact Or.inr (Or.inl ⟨hfull, rfl, rfl, rfl⟩)
  · rw [if_neg hfull]
    exact Or.inr (Or.inr ⟨by omega, rfl, rfl⟩)

/-- A slot with a good index is the one behind the list. -/
theorem segmentList_snoc {w : Segments σ} {i : Int} (hidx : -1 ≤ w.segmentsIdx)
    (hlt : w.segmentsIdx < 2 ^ 31) (hi : i = int32 (w.segmentsIdx + 1)) (hpos : 0 ≤ i)
    (segmentsMax allocated : Nat) (s : Segment σ) :
    i = w.segmentsIdx + 1 ∧
      segmentList ⟨segmentsMax, i, allocated, Function.update w.slots i (some s)⟩
        = segmentList w ++ [some s] := by
  have hnext : i = w.segmentsIdx + 1 := by
    rcases lt_or_ge (w.segmentsIdx + 1) (2 ^ 31) with h | h
    · rw [hi, int32_of_fits (by omega) h]
    · have hmax : w.segmentsIdx = 2 ^ 31 - 1 := by omega
      rw [hi, hmax, int32_succ_max] at hpos
      omega
  refine ⟨hnext, ?_⟩
  have hlen : (i + 1).toNat = (w.segmentsIdx + 1).toNat + 1 := by omega
  simp only [segmentList, hlen, List.range_succ, List.map_append, List.map_singleton]
  congr 1
  · refine List.map_congr_left ?_
    intro j hj
    have hj' := List.mem_range.mp hj
    exact Function.update_of_ne (by omega) _ _
  · have hcast : (((w.segmentsIdx + 1).toNat : Nat) : Int) = i := by omega
    rw [hcast, Function.update_self]

/-- **Good calls keep the list**: it grows by the segments of the successful ones. -/
theorem segmentList_run {w : Segments σ} {cs : List (Call σ)} (hidx : -1 ≤ w.segmentsIdx)
    (hlt : w.segmentsIdx < 2 ^ 31) (h : GuardedRun.Along step CallGood w cs) :
    segmentList (GuardedRun.run step w cs) = segmentList w ++ (successful w cs).map some := by
  induction cs generalizing w with
  | nil => exact (List.append_nil _).symm
  | cons c cs ih =>
      obtain ⟨hgood, hrest⟩ := h
      rw [GuardedRun.run_cons, successful]
      have hrange := int32_lt (w.segmentsIdx + 1)
      -- a refused call leaves the list, the other two store one segment at the next index
      rcases addSegment_cases w c with ⟨-, -, hslot, heq⟩ | ⟨-, -, hslot, heq⟩ | ⟨-, hslot, heq⟩
      · have hstep : step w c = _ := congrArg Prod.snd heq
        rw [hstep] at hrest ⊢
        rw [heq, if_neg (by simp)]
        exact ih hidx hlt hrest
      · have hstep : step w c = _ := congrArg Prod.snd heq
        rw [CallGood, hslot] at hgood
        obtain ⟨hnext, hlist⟩ := segmentList_snoc hidx hlt rfl hgood.1
          ((w.segmentsMax + segmentsReallocStepSize) % 2 ^ 64)
          ((w.segmentsMax + segmentsReallocStepSize) % 2 ^ 64) c.segment
        rw [hstep] at hrest ⊢
        rw [heq, if_pos rfl]
        refine (ih ?_ hrange hrest).trans ?_
        · show -1 ≤ int32 (w.segmentsIdx + 1)
          omega
        · rw [hlist, List.append_assoc]
          rfl
      · have hstep : step w c = _ := congrArg Prod.snd heq
        rw [CallGood, hslot] at hgood
        obtain ⟨hnext, hlist⟩ := segmentList_snoc hidx hlt rfl hgood.1 w.segmentsMax w.allocated
          c.segment
        rw [hstep] at hrest ⊢
        rw [heq, if_pos rfl]
        refine (ih ?_ hrange hrest).trans ?_
        · show -1 ≤ int32 (w.segmentsIdx + 1)
          omega
        · rw [hlist, List.append_assoc]
          rfl

/-! ## The list of the writer -/

/-- The array holds the list that the writer's other functions go over. -/
structure Agrees (a : Segments σ) (w : Writer σ) : Prop where
  idx : a.segmentsIdx = (w.segments.length : Int) - 1
  max : a.segmentsMax = w.segmentsMax
  list : segmentList a = w.segments.map some

/-- **The array refines the list of the writer**, as long as both counts fit an `int`:
    wherever the slots may be, a call returns the same and appends the same segment. -/
theorem addSegment_agrees {a : Segments σ} {w : Writer σ} (h : Agrees a w)
    (hmax : w.segmentsMax < 2 ^ 31) (hlen : w.segments.length < 2 ^ 31) (c : Call σ) :
    (addSegment a c).1
        = (ticosCoreElfWriterAddSegment c.realloc w c.segment.header c.segment.data).1 ∧
      Agrees (step a c)
        (ticosCoreElfWriterAddSegment c.realloc w c.segment.header c.segment.data).2 := by
  have hidx := h.idx
  have hamax := h.max
  have hask : int32 (int32 a.segmentsMax - 1) = (w.segmentsMax : Int) - 1 := by
    rw [hamax, int32_of_fits (x := (w.segmentsMax : Int)) (by omega) (by omega),
      int32_of_fits (by omega) (by omega)]
  have hnext : int32 (a.segmentsIdx + 1) = w.segments.length := by
    rw [int32_of_fits (by omega) (by omega)]
    omega
  have hgrown : (a.segmentsMax + segmentsReallocStepSize) % 2 ^ 64
      = w.segmentsMax + segmentsReallocStepSize := by
    rw [hamax, segmentsReallocStepSize]
    omega
  -- the slot is stored into whatever the capacity is, so one fact does for both calls that
  -- succeed
  have hlist : ∀ segmentsMax allocated, segmentList ⟨segmentsMax, (w.segments.length : Int),
      allocated, Function.update a.slots w.segments.length (some c.segment)⟩
      = (w.segments ++ [c.segment]).map some := by
    intro segmentsMax allocated
    obtain ⟨-, hsnoc⟩ := segmentList_snoc (i := (w.segments.length : Int)) (w := a) (by omega)
      (by omega) hnext.symm (by omega) segmentsMax allocated c.segment
    rw [hsnoc, h.list, List.map_append]
    rfl
  have hsnocIdx : (w.segments.length : Int)
      = (((w.segments ++ [c.segment]).length : Nat) : Int) - 1 := by
    rw [List.length_append, List.length_singleton]
    omega
  rw [step, ticosCoreElfWriterAddSegment, CoreElfWriter.prvAllocNextSegment]
  rcases addSegment_cases a c with ⟨hfull, hr, -, heq⟩ | ⟨hfull, hr, -, heq⟩ | ⟨hroom, -, heq⟩
  · rw [if_pos (show w.segments.length ≥ w.segmentsMax by omega), heq, hr]
    exact ⟨rfl, hidx, hgrown, h.list⟩
  · rw [if_pos (show w.segments.length ≥ w.segmentsMax by omega), heq, hr, hnext]
    exact ⟨rfl, hsnocIdx, hgrown, hlist _ _⟩
  · rw [if_neg (show ¬ w.segments.length ≥ w.segmentsMax by omega), heq, hnext]
    exact ⟨rfl, hsnocIdx, hamax, hlist _ _⟩

/-! ## Full arrays -/

/-- The state after `k` calls that all got a slot: the array has been allocated in steps of
    32 slots, as many as are needed. -/
structure Full (k : Nat) (w : Segments σ) : Prop where
  idx : w.segmentsIdx = (k : Int) - 1
  max : w.segmentsMax = w.allocated
  steps : w.segmentsMax % 32 = 0
  room : k ≤ w.segmentsMax
  tight : w.segmentsMax < k + 32

/-- The comparison with `segments_max - 1` is exact as far as an `int` has an index for
    the last slot, also when it cannot hold the number of slots. -/
theorem int32_limit {slots : Nat} (h : slots ≤ 2 ^ 31) :
    int32 (int32 slots - 1) = (slots : Int) - 1 := by
  rcases Nat.lt_or_eq_of_le h with hlt | rfl
  · rw [int32_of_fits (x := (slots : Int)) (by omega) (by omega),
      int32_of_fits (by omega) (by omega)]
  · decide +kernel

/-- Room is looked for at every 32nd segment. -/
theorem Full.asks_iff {k : Nat} {w : Segments σ} (h : Full k w) (hk : k < 2 ^ 31) :
    w.segmentsIdx ≥ int32 (int32 w.segmentsMax - 1) ↔ k % 32 = 0 := by
  have hidx := h.idx
  have hsteps := h.steps
  have hroom := h.room
  have htight := h.tight
  rw [int32_limit (by omega)]
  omega

/-- An index that is the greatest `int` has no successor. -/
theorem asks_at_max {w : Segments σ} (h : w.segmentsIdx = 2 ^ 31 - 1) :
    w.segmentsIdx ≥ int32 (int32 w.segmentsMax - 1) := by
  have := int32_lt (int32 w.segmentsMax - 1)
  omega

/-- **A call in a full array**: it gets the next slot, or it asks for memory in vain. -/
theorem Full.step {k : Nat} {w : Segments σ} (h : Full k w) (hk : k < 2 ^ 31) (c : Call σ) :
    (¬ (k % 32 = 0 ∧ c.realloc = false) ∧ CallGood w c ∧ Full (k + 1) (step w c)) ∨
    (k % 32 = 0 ∧ c.realloc = false ∧ CallGood w c ∧ w.allocated = k ∧
      step w c = { w with segmentsMax := k + 32 }) := by
  have hidx := h.idx
  have hmax := h.max
  have hsteps := h.steps
  have hroom := h.room
  have htight := h.tight
  have hask := h.asks_iff hk
  have hnext : int32 (w.segmentsIdx + 1) = k := by
    rw [int32_of_fits (by omega) (by omega)]
    omega
  have hgrown : (w.segmentsMax + segmentsReallocStepSize) % 2 ^ 64 = w.segmentsMax + 32 := by
    rw [segmentsReallocStepSize]
    omega
  rw [CallGood]
  rcases addSegment_cases w c with ⟨hfull, hr, hslot, heq⟩ | ⟨hfull, hr, hslot, heq⟩ |
    ⟨hfull, hslot, heq⟩
  · have hk0 := hask.mp hfull
    have hstep : SegmentArray.step w c = _ := congrArg Prod.snd heq
    rw [hgrown] at hstep
    refine Or.inr ⟨hk0, hr, ?_, by omega, ?_⟩
    · rw [hslot, hstep]
      rfl
    · rw [hstep, show w.segmentsMax = k by omega]
  · have hk0 := hask.mp hfull
    have hstep : SegmentArray.step w c = _ := congrArg Prod.snd heq
    rw [hgrown, hnext] at hstep
    refine Or.inl ⟨fun hno => ?_, ?_, ?_⟩
    · rw [hr] at hno
      exact nomatch hno.2
    · rw [hslot, hstep, hnext]
      exact ⟨by omega, by show (k : Int) < ((w.segmentsMax + 32 : Nat) : Int); omega⟩
    · rw [hstep]
      exact ⟨by show (k : Int) = ((k + 1 : Nat) : Int) - 1; omega, rfl,
        by show (w.segmentsMax + 32) % 32 = 0; omega,
        by show k + 1 ≤ w.segmentsMax + 32; omega,
        by show w.segmentsMax + 32 < k + 1 + 32; omega⟩
  · -- there is room
    have hk0 : ¬ k % 32 = 0 := fun h0 => by
      have := hask.mpr h0
      omega
    have hstep : SegmentArray.step w c = _ := congrArg Prod.snd heq
    rw [hnext] at hstep
    refine Or.inl ⟨fun hno => hk0 hno.1, ?_, ?_⟩
    · rw [hslot, hstep, hnext]
      exact ⟨by omega, by show (k : Int) < (w.allocated : Int); omega⟩
    · rw [hstep]
      exact ⟨by show (k : Int) = ((k + 1 : Nat) : Int) - 1; omega, hmax, hsteps,
        by show k + 1 ≤ w.segmentsMax; omega, by show w.segmentsMax < k + 1 + 32; omega⟩

/-- **The call after a failed one** takes a slot that has never been allocated. -/
theorem call_after_failure {k : Nat} {w : Segments σ} (hk : k < 2 ^ 31) (hk0 : k % 32 = 0)
    (hidx : w.segmentsIdx = (k : Int) - 1) (hmax : w.segmentsMax = k + 32)
    (hall : w.allocated = k) (c : Call σ) : ¬ CallGood w c := by
  have hroom : ¬ w.segmentsIdx ≥ int32 (int32 w.segmentsMax - 1) := by
    rw [int32_limit (by omega)]
    omega
  have hnext : int32 (w.segmentsIdx + 1) = k := by
    rw [int32_of_fits (by omega) (by omega)]
    omega
  rcases addSegment_cases w c with ⟨hfull, -⟩ | ⟨hfull, -⟩ | ⟨-, hslot, heq⟩
  · exact absurd hfull hroom
  · exact absurd hfull hroom
  · have hstep : SegmentArray.step w c = _ := congrArg Prod.snd heq
    rw [CallGood, hslot, hstep, hnext]
    rintro ⟨-, hlt⟩
    have : (k : Int) < (w.allocated : Int) := hlt
    omega

/-- With the greatest `int` as index, a call is good only if it fails. -/
theorem call_at_max {w : Segments σ} (h : w.segmentsIdx = 2 ^ 31 - 1) (c : Call σ) :
    (CallGood w c ↔ c.realloc = false) ∧
      (c.realloc = false → (step w c).segmentsIdx = 2 ^ 31 - 1) := by
  rcases addSegment_cases w c with ⟨-, hr, hslot, heq⟩ | ⟨-, hr, hslot, heq⟩ | ⟨hroom, -⟩
  · have hstep : SegmentArray.step w c = _ := congrArg Prod.snd heq
    rw [CallGood, hslot, hstep, hr]
    exact ⟨⟨fun _ => rfl, fun _ => rfl⟩, fun _ => h⟩
  · rw [CallGood, hslot, hr, h, int32_succ_max]
    exact ⟨⟨fun hgood => absurd hgood.1 (by decide), fun hno => nomatch hno⟩,
      fun hno => nomatch hno⟩
  · exact absurd (asks_at_max h) (by omega)

/-! ## Runs -/

/-- Of the calls from number `k` on: where a call below `2 ^ 31` asks for memory and is not
    the last one, it gets it; and no call from `2 ^ 31` on does. -/
def ReallocsOk (k : Nat) (cs : List (Call σ)) : Prop :=
  ∀ i c, cs[i]? = some c →
    (k + i < 2 ^ 31 → (k + i) % 32 = 0 → i + 1 < cs.length → c.realloc = true) ∧
      (2 ^ 31 ≤ k + i → c.realloc = false)

theorem reallocsOk_cons {k : Nat} {c : Call σ} {cs : List (Call σ)} :
    ReallocsOk k (c :: cs) ↔
      ((k < 2 ^ 31 → k % 32 = 0 → cs ≠ [] → c.realloc = true) ∧
        (2 ^ 31 ≤ k → c.realloc = false)) ∧ ReallocsOk (k + 1) cs := by
  constructor
  · intro h
    refine ⟨?_, ?_⟩
    · obtain ⟨h1, h2⟩ := h 0 c rfl
      refine ⟨fun hk hk0 hne => h1 hk hk0 ?_, h2⟩
      have := List.length_pos_iff.mpr hne
      rw [List.length_cons]
      omega
    · intro i c' hc'
      obtain ⟨h1, h2⟩ := h (i + 1) c' hc'
      rw [List.length_cons] at h1
      exact ⟨fun hk hk0 hlt => h1 (by omega) (by omega) (by omega), fun hk => h2 (by omega)⟩
  · rintro ⟨⟨h1, h2⟩, hrest⟩ i c' hc'
    cases i with
    | zero =>
        obtain rfl : c = c' := Option.some.inj hc'
        refine ⟨fun hk hk0 hlt => h1 hk hk0 ?_, h2⟩
        rintro rfl
        simp at hlt
    | succ i =>
        obtain ⟨h3, h4⟩ := hrest i c' hc'
        rw [List.length_cons]
        exact ⟨fun hk hk0 hlt => h3 (by omega) (by omega) (by omega), fun hk => h4 (by omega)⟩

/-- From the greatest index on every call has to fail. -/
theorem along_at_max {k : Nat} (hk : 2 ^ 31 ≤ k) (cs : List (Call σ)) :
    ∀ {w : Segments σ}, w.segmentsIdx = 2 ^ 31 - 1 →
      (GuardedRun.Along step CallGood w cs ↔ ReallocsOk k cs) := by
  induction cs generalizing k with
  | nil => exact fun _ => ⟨(fun _ i c hc => nomatch hc), fun _ => trivial⟩
  | cons c cs ih =>
      intro w hw
      obtain ⟨hgood, hstay⟩ := call_at_max hw c
      rw [GuardedRun.Along, reallocsOk_cons, hgood]
      constructor
      · rintro ⟨hr, hrest⟩
        exact ⟨⟨fun h => absurd h (by omega), fun _ => hr⟩,
          (ih (by omega) (hstay hr)).mp hrest⟩
      · rintro ⟨⟨-, hr⟩, hrest⟩
        exact ⟨hr hk, (ih (by omega) (hstay (hr hk))).mpr hrest⟩

/-- **The condition on the answers of `realloc` is exact.** -/
theorem along_iff {k : Nat} (hk : k ≤ 2 ^ 31) (cs : List (Call σ)) :
    ∀ {w : Segments σ}, Full k w →
      (GuardedRun.Along step CallGood w cs ↔ ReallocsOk k cs) := by
  induction cs generalizing k with
  | nil => exact fun _ => ⟨(fun _ i c hc => absurd hc (by simp)), fun _ => trivial⟩
  | cons c cs ih =>
      intro w hw
      -- an index below the greatest `int`, or that one
      rcases Nat.lt_or_ge k (2 ^ 31) with hlt | hge
      · rw [GuardedRun.Along, reallocsOk_cons]
        rcases hw.step hlt c with ⟨hno, hgood, hnext⟩ | ⟨hk0, hr, hgood, hall, hstep⟩
        · have hans : k % 32 = 0 → c.realloc = true := by
            intro hk0
            cases hr : c.realloc with
            | true => rfl
            | false => exact absurd ⟨hk0, hr⟩ hno
          rw [ih hlt hnext]
          exact ⟨fun h => ⟨⟨fun _ hk0 _ => hans hk0, fun h => absurd h (by omega)⟩, h.2⟩,
            fun h => ⟨hgood, h.2⟩⟩
        · -- no call may follow
          cases cs with
          | nil =>
              exact ⟨fun _ => ⟨⟨fun _ _ hne => absurd rfl hne, fun h => absurd h (by omega)⟩,
                fun i c hc => absurd hc (by simp)⟩, fun _ => ⟨hgood, trivial⟩⟩
          | cons d ds =>
              constructor
              · rintro ⟨-, hbad, -⟩
                rw [hstep] at hbad
                exact absurd hbad (call_after_failure (w := { w with segmentsMax := k + 32 }) hlt hk0
                  hw.idx rfl hall d)
              · rintro ⟨⟨hans, -⟩, -⟩
                have := hans hlt hk0 (by simp)
                rw [hr] at this
                cases this
      · have hmax : w.segmentsIdx = 2 ^ 31 - 1 := by
          rw [hw.idx]
          omega
        exact along_at_max hge (c :: cs) hmax

theorem full_init : Full 0 (ticosCoreElfWriterInit : Segments σ) :=
  ⟨rfl, rfl, rfl, Nat.le_refl _, Nat.succ_pos 31⟩

/-- **The list survives exactly when only the last call fails for want of memory** (and none
    finds memory for a segment number `2 ^ 31` or later). -/
theorem survives_iff (cs : List (Call σ)) : Survives cs ↔ ReallocsOk 0 cs := by
  rw [Survives, along_iff (Nat.zero_le _) cs full_init, and_iff_left_iff_imp]
  intro h
  have halong := (along_iff (Nat.zero_le _) cs full_init).mpr h
  have hidx : (ticosCoreElfWriterInit : Segments σ).segmentsIdx = -1 := rfl
  exact segmentList_run (w := ticosCoreElfWriterInit) (by omega) (by omega) halong

/-- A NOTE segment without bytes. -/
def emptyNote : Segment Unit := ⟨⟨ptNote, 0, 0, 0, 0, 0, 0, 0⟩, .buffer []⟩

/-- **A failed call and another one**: the second is told that it has slot 0, and nothing
    has been allocated. -/
theorem failed_realloc_fills_unallocated :
    ¬ (∀ cs : List (Call Unit), Survives cs) ∧
      (prvAllocNextSegment true (step ticosCoreElfWriterInit ⟨emptyNote, false⟩)).1 = some 0 ∧
      (step (step ticosCoreElfWriterInit ⟨emptyNote, false⟩) ⟨emptyNote, true⟩).allocated = 0 := by
  refine ⟨fun h => ?_, by decide +kernel, by decide +kernel⟩
  have hans := ((survives_iff _).mp (h [⟨emptyNote, false⟩, ⟨emptyNote, true⟩]) 0 _ rfl).1
    (by omega) rfl (by simp)
  exact nomatch hans

end SegmentArray
