import Ticosd.CoreElfFileIo

/-! # Writing a core file ends — or hangs

    Three loops stand inside one another: the writer's, the one of the gzip IO, and
    `prv_io_write_all`, at two layers.  The only one that can hang is the innermost:
    `prv_io_write_all` asks `errno` why a call has failed, and `prv_fio_write` does not
    set it when it refuses.  If it is `EINTR` from some other time, the call is made
    again, and is refused again.

    `Unstuck` says that this has not happened.  Everything else ends, by a number that
    gets smaller in every round: the interrupts that are still to come and the bytes to
    write; what `deflate` still has to do; the padding. -/

namespace CoreElfFileIo

open CoreElf Fuel
open CoreElfWriter (prvCalcPadding paddingWriteSize elfHeader)

variable {ζ : Type}

/-! ## What is bad, and what is to be reported -/

/-- `max_size` would be exceeded. -/
def Call.Refused (c : Call) : Prop := c.outcome = none

/-- No call has been refused. -/
def State.Unrefused (s : State ζ) : Prop := ∀ c ∈ s.log, ¬ c.Refused

/-- No call has been refused while `errno` was `EINTR`. -/
def State.Unstuck (s : State ζ) : Prop := ∀ c ∈ s.log, ¬ (c.Refused ∧ c.errno = eintr)

/-- What `deflate` is expected to do, on a stream that is open (after `deflateInit2` and
    calls with `Z_NO_FLUSH`) or being finished: it returns `Z_OK`, or `Z_STREAM_END`, and
    there is less to do. -/
structure Progress (deflate : Deflate ζ) where
  Open : ζ → Prop
  Finishing : ζ → Prop
  work : ζ → List UInt8 → Nat
  finishing : ∀ zs, Open zs → Finishing zs
  noFlush : ∀ zs nextIn, Open zs → nextIn ≠ [] →
    let d := deflate .noFlush zs nextIn gzipCompressionBufferSize
    d.rv = zOk ∧ Open d.zs ∧ work d.zs (nextIn.drop d.consumed) < work zs nextIn
  finish : ∀ zs nextIn, Finishing zs →
    let d := deflate .finish zs nextIn gzipCompressionBufferSize
    d.rv = zStreamEnd ∨
      d.rv = zOk ∧ Finishing d.zs ∧ work d.zs (nextIn.drop d.consumed) < work zs nextIn

/-- The callback returns false, whatever its calls return. -/
def Callback.Fails : Callback → Prop
  | .ret ok => ok = false
  | .write _ next => ∀ ok, (next ok).Fails
  | .setErrno _ next => next.Fails

/-- The callback returns false if one of its calls does. -/
def Callback.Reports : Callback → Prop
  | .ret _ => True
  | .write _ next => (next true).Reports ∧ (next false).Fails
  | .setErrno _ next => next.Reports

/-- `prv_write_load_segment_data_cb`, by the pieces it hands over, each with the `errno`
    that `copy_proc_mem` has left. -/
def copying : List (Nat × List UInt8) → Callback
  | [] => .ret true
  | (errno, piece) :: rest =>
      .setErrno errno (.write piece (fun ok => if ok then copying rest else .ret false))

/-- The callback of the transformer reports. -/
theorem copying_reports (pieces : List (Nat × List UInt8)) : (copying pieces).Reports := by
  induction pieces with
  | nil => trivial
  | cons p rest ih => exact ⟨ih, rfl⟩

/-- A buffer, or a callback that reports what has failed. -/
def SegmentData.Reports : SegmentData → Prop
  | .buffer _ => True
  | .callback fn => fn.Reports

/-! ## The rules -/

variable {Open : ζ → Prop}

/-- The program settles from every state, the stream stays open, and a result that is
    `ok` says that the condition holds and that no call has been refused. -/
def Reporting (Open : ζ → Prop) (cond : Prop) {α : Type} (ok : α → Bool)
    (p : Prog (State ζ) α) : Prop :=
  ∀ s : State ζ, s.Unstuck → Open s.zs → Settles State.Unstuck p s (fun a s' =>
    Open s'.zs ∧ (ok a = true → cond ∧ (s.Unrefused → s'.Unrefused)))

section Rules

variable {cond : Prop} {α β : Type} {ok : α → Bool}

theorem Reporting.pure {a : α} (h : ok a = true → cond) :
    Reporting Open cond ok (Pure.pure a : Prog (State ζ) α) :=
  fun _ hs hopen => Settles.pure hs ⟨hopen, fun hok => ⟨h hok, id⟩⟩

/-- An action that calls no IO. -/
theorem Reporting.act {f : State ζ → α × State ζ} (hlog : ∀ s, (f s).2.log = s.log)
    (hzs : ∀ s, (f s).2.zs = s.zs) (h : cond) : Reporting Open cond ok (Prog.act f) := by
  intro s hs hopen
  refine Settles.act ?_ ⟨(hzs s).symm ▸ hopen, fun _ => ⟨h, fun hun => ?_⟩⟩
  · rw [State.Unstuck, hlog s]
    exact hs
  · rw [State.Unrefused, hlog s]
    exact hun

theorem Reporting.bind {p : Prog (State ζ) α} {f : α → Prog (State ζ) β} {ok' : β → Bool}
    (hp : Reporting Open True ok p)
    (hf : ∀ a, Reporting Open (cond ∧ ok a = true) ok' (f a)) :
    Reporting Open cond ok' (p >>= f) := by
  intro s hs hopen
  refine (hp s hs hopen).bind ?_
  rintro a s' ⟨hopen', hrep⟩ hs'
  refine (hf a s' hs' hopen').weaken ?_
  rintro b s'' ⟨hopen'', hrep'⟩ -
  refine ⟨hopen'', fun hok => ?_⟩
  obtain ⟨⟨hcond, hoka⟩, hun⟩ := hrep' hok
  exact ⟨hcond, fun h => hun ((hrep hoka).2 h)⟩

theorem Reporting.weaken {cond' : Prop} {p : Prog (State ζ) α} (h : Reporting Open cond ok p)
    (hcond : cond → cond') : Reporting Open cond' ok p := by
  intro s hs hopen
  refine (h s hs hopen).weaken ?_
  rintro a s' ⟨hopen', hrep⟩ -
  exact ⟨hopen', fun hok => ⟨hcond (hrep hok).1, (hrep hok).2⟩⟩

/-- An action that calls no IO, first. -/
theorem Reporting.step {g : State ζ → α × State ζ} {f : α → Prog (State ζ) β} {ok' : β → Bool}
    (hlog : ∀ s, (g s).2.log = s.log) (hzs : ∀ s, (g s).2.zs = s.zs)
    (hf : ∀ a, Reporting Open cond ok' (f a)) :
    Reporting Open cond ok' (Prog.act g >>= f) := by
  have hact : Reporting Open True (fun _ => true) (Prog.act g) := Reporting.act hlog hzs trivial
  exact hact.bind fun a => (hf a).weaken fun h => ⟨h, rfl⟩

/-- `if (!p) return false;` and then the rest. -/
theorem Reporting.andThen {p q : Prog (State ζ) Bool} (hp : Reporting Open True id p)
    (hq : Reporting Open cond id q) :
    Reporting Open cond id (p >>= fun b => if b = true then q else Pure.pure false) := by
  refine hp.bind ?_
  rintro (_ | _)
  · exact Reporting.pure fun h => nomatch h
  · exact hq.weaken fun h => ⟨h, rfl⟩

end Rules

/-! ## The file IO -/

/-- `prv_io_write_all` on the IO settles, leaves the stream alone, and leaves `errno` other
    than `EINTR` if it fails. -/
def Sends (io : WriteIo ζ) : Prop :=
  ∀ data (s : State ζ), s.Unstuck → Settles State.Unstuck (prvIoWriteAll io data) s
    (fun ok s' => (s'.zs = s.zs ∧ s'.nextIn = s.nextIn) ∧
      (ok = true → s.Unrefused → s'.Unrefused) ∧ (ok = false → s'.errno ≠ eintr))

section File

variable {kernel : Nat → Outcome} {fsync : Bool}

/-- A round on the file IO is one call. -/
theorem writeAllRound_run (kernel : Nat → Outcome) (fsync : Bool) {data : List UInt8}
    (hne : data ≠ []) (s : State ζ) (n : Nat) :
    (writeAllRound (fio kernel fsync) data).run n s =
      (some (match (prvFioWrite kernel data s).1 with
        | none => if (prvFioWrite kernel data s).2.errno = eintr then .inl data else .inr false
        | some k => .inl (data.drop k)), (prvFioWrite kernel data s).2) := by
  have hcall : ((fio kernel fsync).write data).run n s
      = (some (prvFioWrite kernel data s).1, (prvFioWrite kernel data s).2) := rfl
  rw [writeAllRound, if_neg hne, Prog.run_bind_some hcall]
  cases hres : (prvFioWrite kernel data s).1 with
  | some k => rfl
  | none =>
      have herrno : (getErrno : Prog (State ζ) Nat).run n (prvFioWrite kernel data s).2
          = (some (prvFioWrite kernel data s).2.errno, (prvFioWrite kernel data s).2) := rfl
      dsimp only
      rw [Prog.run_bind_some herrno]
      by_cases he : (prvFioWrite kernel data s).2.errno = eintr
      · rw [if_pos he, if_pos he]
        rfl
      · rw [if_neg he, if_neg he]
        rfl

/-- The call is refused, and `errno` is `EINTR`. -/
def Stuck (data : List UInt8) (s : State ζ) : Prop :=
  data ≠ [] ∧ s.maxSize < (s.writtenSize + data.length) % 2 ^ 64 ∧ s.errno = eintr

/-- **The hang**: nothing changes but the notes. -/
theorem stuck_round {data : List UInt8} {s : State ζ} (h : Stuck data s) :
    ∃ data' s', Stuck data' s' ∧ ¬ s'.Unstuck ∧
      ∀ n, (writeAllRound (fio kernel fsync) data).run n s = (some (.inl data'), s') := by
  obtain ⟨hne, hfull, herrno⟩ := h
  refine ⟨data, (prvFioWrite kernel data s).2, ?_, ?_, fun n => ?_⟩
  · rw [prvFioWrite_refused kernel hfull]
    exact ⟨hne, hfull, herrno⟩
  · rw [prvFioWrite_refused kernel hfull]
    exact fun hun => hun _ List.mem_cons_self ⟨rfl, herrno⟩
  · rw [writeAllRound_run kernel fsync hne, prvFioWrite_refused kernel hfull]
    dsimp only
    rw [if_pos herrno]

/-- A call more that is not stuck. -/
theorem State.Unstuck.call {s s' : State ζ} (h : s.Unstuck) {c : Call}
    (hlog : s'.log = c :: s.log) (hc : ¬ (c.Refused ∧ c.errno = eintr)) : s'.Unstuck := by
  rw [State.Unstuck, hlog]
  exact List.forall_mem_cons.mpr ⟨hc, h⟩

theorem State.Unrefused.call {s s' : State ζ} (h : s.Unrefused) {c : Call}
    (hlog : s'.log = c :: s.log) (hc : ¬ c.Refused) : s'.Unrefused := by
  rw [State.Unrefused, hlog]
  exact List.forall_mem_cons.mpr ⟨hc, h⟩

/-- **`prv_io_write_all` on the file IO** ends, or hangs in the way that is known: what
    is left to do is the interrupts to come and the bytes to write. -/
theorem fio_sends {N : Nat} (hintr : ∀ i, N ≤ i → kernel i ≠ .fail eintr)
    (hpos : ∀ i n, kernel i = .accept n → 0 < n) :
    Sends (fio kernel fsync : WriteIo ζ) := by
  intro data s hs
  let Inv : List UInt8 → State ζ → Prop := fun _ t => t.Unstuck ∧
    (t.zs = s.zs ∧ t.nextIn = s.nextIn) ∧ (s.Unrefused → t.Unrefused)
  have hinv : Inv data s := ⟨hs, ⟨rfl, rfl⟩, id⟩
  refine Settles.loop Inv (fun rest t => (N - t.calls) + rest.length) ?_ hinv
  rintro rest t ⟨ht, hsame, hun⟩
  by_cases hne : rest = []
  · refine Or.inr ⟨ht, ?_⟩
    rw [writeAllRound, if_pos hne]
    exact Settles.pure ht ⟨hsame, fun _ => hun, by simp⟩
  · by_cases hfull : t.maxSize < (t.writtenSize + rest.length) % 2 ^ 64
    · by_cases herrno : t.errno = eintr
      · exact Or.inl (Settles.stuck (fun _ _ h => stuck_round h) ⟨hne, hfull, herrno⟩)
      · have hround := writeAllRound_run kernel fsync hne t
        rw [prvFioWrite_refused kernel hfull] at hround
        dsimp only at hround
        rw [if_neg herrno] at hround
        refine Or.inr ⟨ht, Settles.ended hround (ht.call rfl fun h => herrno h.2) ?_⟩
        exact ⟨hsame, by simp, fun _ => herrno⟩
    · have hround := writeAllRound_run kernel fsync hne t
      cases hk : kernel t.calls with
      | accept n =>
          rw [prvFioWrite_accept hfull hk] at hround
          refine Or.inr ⟨ht, Settles.ended hround (ht.call rfl (fun h => absurd h.1 (Option.some_ne_none _))) ?_⟩
          refine ⟨⟨ht.call rfl (fun h => absurd h.1 (Option.some_ne_none _)), hsame,
            fun h => (hun h).call rfl (Option.some_ne_none _)⟩, ?_⟩
          have htaken := hpos t.calls n hk
          have hlen := List.length_pos_iff.mpr hne
          dsimp only
          rw [List.length_drop]
          omega
      | fail e =>
          rw [prvFioWrite_fail hfull hk] at hround
          dsimp only at hround
          refine Or.inr ⟨ht, ?_⟩
          by_cases he : e = eintr
          · -- one of the interrupts
            rw [if_pos he] at hround
            have hcalls : t.calls < N := by
              rcases Nat.lt_or_ge t.calls N with hlt | hge
              · exact hlt
              · exact absurd (he ▸ hk) (hintr t.calls hge)
            refine Settles.ended hround (ht.call rfl (fun h => absurd h.1 (Option.some_ne_none _))) ?_
            refine ⟨⟨ht.call rfl (fun h => absurd h.1 (Option.some_ne_none _)), hsame,
              fun h => (hun h).call rfl (Option.some_ne_none _)⟩, ?_⟩
            dsimp only
            omega
          · rw [if_neg he] at hround
            refine Settles.ended hround (ht.call rfl (fun h => absurd h.1 (Option.some_ne_none _))) ?_
            exact ⟨hsame, by simp, fun _ => he⟩

end File

theorem Sends.reporting {io : WriteIo ζ} (h : Sends io) (data : List UInt8) :
    Reporting Open True id (prvIoWriteAll io data) := by
  intro s hs hopen
  refine (h data s hs).weaken ?_
  rintro ok s' ⟨⟨hzs, -⟩, hrep, -⟩ -
  exact ⟨hzs ▸ hopen, fun hok => ⟨trivial, hrep hok⟩⟩

/-! ## The gzip IO -/

section Gzip

variable {deflate : Deflate ζ} {next : WriteIo ζ}

/-- Compressing a buffer: what `deflate` still has to do gets less. -/
theorem gzipLoop_settles (progress : Progress deflate) (hnext : Sends next) {s : State ζ}
    (hs : s.Unstuck) (hopen : progress.Open s.zs) :
    Settles State.Unstuck (Prog.loop (gzipRound deflate next) ()) s (fun ok s' =>
      progress.Open s'.zs ∧ (ok = true → s.Unrefused → s'.Unrefused) ∧
        (ok = false → s'.errno ≠ eintr)) := by
  let Inv : Unit → State ζ → Prop := fun _ t => t.Unstuck ∧ progress.Open t.zs ∧
    (s.Unrefused → t.Unrefused)
  have hinv : Inv () s := ⟨hs, hopen, id⟩
  refine Settles.loop Inv (fun _ t => progress.work t.zs t.nextIn) ?_ hinv
  rintro ⟨⟩ t ⟨ht, htopen, hun⟩
  refine Or.inr ⟨ht, ?_⟩
  refine Settles.bind (Q := fun a t' => a = t.nextIn ∧ t = t') (Settles.act ht ⟨rfl, rfl⟩) ?_
  rintro _ _ ⟨rfl, rfl⟩ -
  by_cases hne : t.nextIn = []
  · rw [if_pos hne]
    exact Settles.pure ht ⟨htopen, fun _ => hun, nofun⟩
  · rw [if_neg hne]
    obtain ⟨hrv, hopen', hless⟩ := progress.noFlush t.zs t.nextIn htopen hne
    let d := deflate .noFlush t.zs t.nextIn gzipCompressionBufferSize
    refine Settles.bind (Q := fun a t' => a = (d.rv, d.out) ∧
      t' = { t with zs := d.zs, nextIn := t.nextIn.drop d.consumed })
      (Settles.act ht ⟨rfl, rfl⟩) ?_
    rintro _ _ ⟨rfl, rfl⟩ ht'
    dsimp only
    rw [if_neg (not_not.mpr hrv)]
    refine (hnext d.out _ ht').bind ?_
    rintro (_ | _) t'' ⟨⟨hzs, hin⟩, hrep, herrno⟩ ht''
    · refine Settles.pure ht'' ⟨?_, nofun, fun _ => herrno rfl⟩
      exact hzs ▸ hopen'
    · refine Settles.pure ht'' ⟨⟨ht'', ?_, fun h => hrep rfl (hun h)⟩, ?_⟩
      · exact hzs ▸ hopen'
      · rw [hzs, hin]
        exact hless

/-- **`prv_io_write_all` on the gzip IO**: a call that fails does not leave `EINTR`. -/
theorem gzio_writeAll (progress : Progress deflate) (hnext : Sends next) (data : List UInt8) :
    Reporting progress.Open True id (prvIoWriteAll (gzio deflate next) data) := by
  intro s hs hopen
  let Inv : List UInt8 → State ζ → Prop := fun _ t => t.Unstuck ∧ progress.Open t.zs ∧
    (s.Unrefused → t.Unrefused)
  have hinv : Inv data s := ⟨hs, hopen, id⟩
  refine Settles.loop Inv (fun rest _ => rest.length) ?_ hinv
  rintro rest t ⟨ht, htopen, hun⟩
  refine Or.inr ⟨ht, ?_⟩
  rw [writeAllRound]
  by_cases hne : rest = []
  · rw [if_pos hne]
    exact Settles.pure ht ⟨htopen, fun _ => ⟨trivial, hun⟩⟩
  · rw [if_neg hne]
    have hwrite : Settles State.Unstuck (prvWrite deflate next rest) t (fun r t' =>
        progress.Open t'.zs ∧ (∀ k, r = some k → k = rest.length ∧ (t.Unrefused → t'.Unrefused)) ∧
          (r = none → t'.errno ≠ eintr)) := by
      refine Settles.bind (Q := fun _ t' => t' = { t with
        nextIn := rest.take (rest.length % 2 ^ 32) }) (Settles.act ht rfl) ?_
      rintro ⟨⟩ _ rfl ht'
      refine (gzipLoop_settles progress hnext ht' htopen).bind ?_
      rintro (_ | _) t'' ⟨hopen', hrep, herrno⟩ ht''
      · exact Settles.pure ht'' ⟨hopen', by simp, fun _ => herrno rfl⟩
      · refine Settles.pure ht'' ⟨hopen', ?_, by simp⟩
        rintro k ⟨⟩
        exact ⟨rfl, hrep rfl⟩
    refine hwrite.bind ?_
    rintro (_ | k) t' ⟨hopen', hrep, herrno⟩ ht'
    · refine Settles.bind (Q := fun e t'' => e = t'.errno ∧ t' = t'') (Settles.act ht' ⟨rfl, rfl⟩) ?_
      rintro _ _ ⟨rfl, rfl⟩ -
      rw [if_neg (herrno rfl)]
      exact Settles.pure ht' ⟨hopen', by simp⟩
    · obtain ⟨rfl, hgood⟩ := hrep k rfl
      refine Settles.pure ht' ⟨⟨ht', hopen', fun h => hgood (hun h)⟩, ?_⟩
      rw [List.drop_length]
      exact List.length_pos_iff.mpr hne

/-- **`prv_sync` of the gzip IO.** -/
theorem gzio_sync (progress : Progress deflate) (hnext : Sends next) :
    ∀ s : State ζ, s.Unstuck → progress.Open s.zs →
      Settles State.Unstuck (gzio deflate next).sync s
        (fun ok s' => ok = true → s.Unrefused → s'.Unrefused) := by
  intro s hs hopen
  let Inv : Unit → State ζ → Prop := fun _ t => t.Unstuck ∧ progress.Finishing t.zs ∧
    (s.Unrefused → t.Unrefused)
  have hinv : Inv () s := ⟨hs, progress.finishing s.zs hopen, id⟩
  refine Settles.loop Inv (fun _ t => progress.work t.zs t.nextIn) ?_ hinv
  rintro ⟨⟩ t ⟨ht, hfin, hun⟩
  refine Or.inr ⟨ht, ?_⟩
  let d := deflate .finish t.zs t.nextIn gzipCompressionBufferSize
  refine Settles.bind (Q := fun a t' => a = (d.rv, d.out) ∧
    t' = { t with zs := d.zs, nextIn := t.nextIn.drop d.consumed }) (Settles.act ht ⟨rfl, rfl⟩) ?_
  rintro _ _ ⟨rfl, rfl⟩ ht'
  dsimp only
  have hcase := progress.finish t.zs t.nextIn hfin
  have hok : ¬ (d.rv ≠ zOk ∧ d.rv ≠ zStreamEnd) := by
    rcases hcase with hend | ⟨hok, -⟩
    · exact fun h => h.2 hend
    · exact fun h => h.1 hok
  rw [if_neg hok]
  refine (hnext d.out _ ht').bind ?_
  rintro (_ | _) t'' ⟨⟨hzs, hin⟩, hrep, -⟩ ht''
  · exact Settles.pure ht'' nofun
  · by_cases hend : d.rv = zStreamEnd
    · show Settles State.Unstuck (if d.rv = zStreamEnd then _ else _) t'' _
      rw [if_pos hend]
      exact Settles.pure ht'' fun _ h => hrep rfl (hun h)
    · obtain ⟨-, hfin', hless⟩ := hcase.resolve_left hend
      show Settles State.Unstuck (if d.rv = zStreamEnd then _ else _) t'' _
      rw [if_neg hend]
      refine Settles.pure ht'' ⟨⟨ht'', ?_, fun h => hrep rfl (hun h)⟩, ?_⟩
      · exact hzs ▸ hfin'
      · rw [hzs, hin]
        exact hless

end Gzip

/-! ## The writer -/

/-- The table has the data of the segments. -/
theorem writeTable_data (io : WriteIo ζ) (segments : List Segment) (offset : Nat) :
    Yields (fun r => ∀ table, r = some table →
      table.map Segment.data = segments.map Segment.data) (writeTable io segments offset) := by
  induction segments generalizing offset with
  | nil =>
      refine Yields.pure ?_
      rintro table ⟨⟩
      rfl
  | cons s rest ih =>
      refine (Yields.trivial _).bind ?_
      rintro (_ | _) -
      · exact Yields.pure nofun
      · refine (ih _).bind ?_
        rintro (_ | table) htable
        · exact Yields.pure nofun
        · refine Yields.pure ?_
          rintro table' ⟨⟩
          rw [List.map_cons, List.map_cons, htable table rfl]

section Writer

variable {io : WriteIo ζ} (hio : ∀ data, Reporting Open True id (prvIoWriteAll io data))
include hio

theorem prvWriteAll_reporting (data : List UInt8) :
    Reporting Open True id (prvWriteAll io data) :=
  (hio data).andThen (Reporting.act (fun _ => rfl) (fun _ => rfl) trivial)

/-- The padding gets less. -/
theorem prvWritePadding_reporting (padSize : Nat) :
    Reporting Open True id (prvWritePadding io padSize) := by
  intro s hs hopen
  let Inv : Nat → State ζ → Prop := fun _ t => t.Unstuck ∧ Open t.zs ∧ (s.Unrefused → t.Unrefused)
  have hinv : Inv padSize s := ⟨hs, hopen, id⟩
  refine Settles.loop Inv (fun left _ => left) ?_ hinv
  rintro left t ⟨ht, htopen, hun⟩
  refine Or.inr ⟨ht, ?_⟩
  rw [paddingRound]
  by_cases hzero : left = 0
  · rw [if_pos hzero]
    exact Settles.pure ht ⟨htopen, fun _ => ⟨trivial, hun⟩⟩
  · rw [if_neg hzero]
    refine (prvWriteAll_reporting hio _ t ht htopen).bind ?_
    rintro (_ | _) t' ⟨hopen', hrep⟩ ht'
    · exact Settles.pure ht' ⟨hopen', nofun⟩
    · refine Settles.pure ht' ⟨⟨ht', hopen', fun h => (hrep rfl).2 (hun h)⟩, ?_⟩
      have hpos : 0 < min paddingWriteSize left :=
        Nat.lt_min.mpr ⟨by decide, Nat.pos_of_ne_zero hzero⟩
      omega

theorem Callback.Fails.reporting {fn : Callback} (h : fn.Fails) :
    Reporting Open False id (fn.call io) := by
  induction fn with
  | ret ok => exact Reporting.pure fun hok => Bool.noConfusion (h.symm.trans hok)
  | write data next ih =>
      refine (prvWriteAll_reporting hio data).bind fun ok => ?_
      exact (ih ok (h ok)).weaken False.elim
  | setErrno e next ih =>
      exact Reporting.step (fun _ => rfl) (fun _ => rfl) fun _ => ih h

theorem Callback.Reports.reporting {fn : Callback} (h : fn.Reports) :
    Reporting Open True id (fn.call io) := by
  induction fn with
  | ret ok => exact Reporting.pure fun _ => trivial
  | write data next ih =>
      refine (prvWriteAll_reporting hio data).bind ?_
      rintro (_ | _)
      · exact (Callback.Fails.reporting hio h.2).weaken False.elim
      · exact (ih true h.1).weaken fun _ => ⟨trivial, rfl⟩
  | setErrno e next ih =>
      exact Reporting.step (fun _ => rfl) (fun _ => rfl) fun _ => ih h

theorem SegmentData.Reports.reporting {data : SegmentData} (h : data.Reports) (header : Phdr) :
    Reporting Open True id (data.write io header) := by
  cases data with
  | buffer bytes => exact prvWriteAll_reporting hio _
  | callback fn => exact Callback.Reports.reporting hio h

theorem writeTable_reporting (segments : List Segment) (offset : Nat) :
    Reporting Open True Option.isSome (writeTable io segments offset) := by
  induction segments generalizing offset with
  | nil => exact Reporting.pure fun _ => trivial
  | cons s rest ih =>
      refine (prvWriteAll_reporting hio _).bind ?_
      rintro (_ | _)
      · exact Reporting.pure fun h => nomatch h
      · refine (ih _).bind ?_
        rintro (_ | table)
        · exact Reporting.pure fun h => nomatch h
        · exact Reporting.pure fun _ => ⟨⟨trivial, rfl⟩, rfl⟩

theorem writeData_reporting {segments : List Segment}
    (h : ∀ d ∈ segments.map Segment.data, d.Reports) :
    Reporting Open True id (writeData io segments) := by
  induction segments with
  | nil => exact Reporting.pure fun _ => trivial
  | cons s rest ih =>
      rw [List.map_cons, List.forall_mem_cons] at h
      refine Reporting.step (fun _ => rfl) (fun _ => rfl) fun offset => ?_
      refine (prvWritePadding_reporting hio _).andThen ?_
      refine (h.1.reporting hio s.header).andThen ?_
      refine Reporting.step (fun _ => rfl) (fun _ => rfl) fun reached => ?_
      by_cases hend : reached ≠ (s.header.offset + s.header.filesz) % 2 ^ 64
      · rw [if_pos hend]
        exact Reporting.pure fun h => nomatch h
      · rw [if_neg hend]
        exact ih h.2

/-- **`ticos_core_elf_writer_write`.** -/
theorem write_settles {w : Writer} (hsegments : ∀ d ∈ w.segments.map Segment.data, d.Reports)
    (hsync : ∀ s : State ζ, s.Unstuck → Open s.zs → Settles State.Unstuck io.sync s
      (fun ok s' => ok = true → s.Unrefused → s'.Unrefused))
    {s : State ζ} (hs : s.Unstuck) (hopen : Open s.zs) :
    Settles State.Unstuck (ticosCoreElfWriterWrite io w) s
      (fun ok s' => ok = true → s.Unrefused → s'.Unrefused) := by
  refine (prvWriteAll_reporting hio _ s hs hopen).bind ?_
  rintro (_ | _) s₁ ⟨hopen₁, hrep₁⟩ hs₁
  · exact Settles.pure hs₁ nofun
  refine Settles.bind (Q := fun _ t => s₁ = t) (Settles.act hs₁ rfl) ?_
  rintro offset _ rfl -
  have htable := writeTable_reporting hio w.segments
    ((offset + phdrSize * w.segments.length) % 2 ^ 64) s₁ hs₁ hopen₁
  refine (htable.yields (writeTable_data io _ _)).bind ?_
  rintro (_ | table) s₂ ⟨hdata, hopen₂, hrep₂⟩ hs₂
  · exact Settles.pure hs₂ nofun
  have hblocks : ∀ d ∈ table.map Segment.data, d.Reports := by
    rw [hdata table rfl]
    exact hsegments
  refine (writeData_reporting hio hblocks s₂ hs₂ hopen₂).bind ?_
  rintro (_ | _) s₃ ⟨hopen₃, hrep₃⟩ hs₃
  · exact Settles.pure hs₃ nofun
  refine (hsync s₃ hs₃ hopen₃).weaken ?_
  rintro ok s₄ hrep₄ - hok hun
  exact hrep₄ hok ((hrep₃ rfl).2 ((hrep₂ rfl).2 ((hrep₁ rfl).2 hun)))

end Writer

/-- **Writing a core file**: over the file IO, or over the gzip IO on top of it, with a
    kernel that does not interrupt for ever and takes something in each call, a `deflate`
    that makes progress, and callbacks that report what has failed, the writer ends, and
    returns false if a call was refused, exactly when no call is refused while `errno` is
    `EINTR`. -/
theorem write_ends_iff {kernel : Nat → Outcome}
    (hintr : ∃ N, ∀ i, N ≤ i → kernel i ≠ .fail eintr)
    (hpos : ∀ i n, kernel i = .accept n → 0 < n) {fsync : Bool} {deflate : Deflate ζ}
    (progress : Progress deflate) {io : WriteIo ζ}
    (hio : io = fio kernel fsync ∨ io = gzio deflate (fio kernel fsync)) {w : Writer}
    (hsegments : ∀ s ∈ w.segments, s.data.Reports) (maxSize errno : Nat) {zs : ζ}
    (hopen : progress.Open zs) :
    (∃ n ok s', (ticosCoreElfWriterWrite io w).run n
        (ticosCoreElfWriteFileIoInit maxSize zs errno) = (some ok, s') ∧
      ((∃ c ∈ s'.log, c.Refused) → ok = false)) ↔
    ∀ n, ((ticosCoreElfWriterWrite io w).run n
      (ticosCoreElfWriteFileIoInit maxSize zs errno)).2.Unstuck := by
  obtain ⟨N, hintr⟩ := hintr
  have hfile : Sends (fio kernel fsync : WriteIo ζ) := fio_sends hintr hpos
  have hdata : ∀ d ∈ w.segments.map Segment.data, d.Reports := by
    intro d hd
    obtain ⟨s, hs, rfl⟩ := List.mem_map.mp hd
    exact hsegments s hs
  have hstart : (ticosCoreElfWriteFileIoInit maxSize zs errno).Unrefused := nofun
  have hsettles : Settles State.Unstuck (ticosCoreElfWriterWrite io w)
      (ticosCoreElfWriteFileIoInit maxSize zs errno)
      (fun ok s' => (∃ c ∈ s'.log, c.Refused) → ok = false) := by
    have hwrite : Settles State.Unstuck (ticosCoreElfWriterWrite io w)
        (ticosCoreElfWriteFileIoInit maxSize zs errno) (fun ok s' => ok = true →
          (ticosCoreElfWriteFileIoInit maxSize zs errno).Unrefused → s'.Unrefused) := by
      rcases hio with rfl | rfl
      · exact write_settles hfile.reporting hdata (fun s hs _ => Settles.pure hs fun _ => id) nofun
          hopen
      · exact write_settles (gzio_writeAll progress hfile) hdata (gzio_sync progress hfile)
          nofun hopen
    refine hwrite.weaken ?_
    rintro (_ | _) s' hrep - ⟨c, hc, hrefused⟩
    · rfl
    · exact absurd hrefused (hrep rfl hstart c hc)
  exact hsettles.ends_iff_good

/-- A `deflate` that collects its input, and puts it out at the end. -/
def collecting : Deflate (List UInt8)
  | .noFlush, zs, nextIn, _ => ⟨zOk, nextIn.length, [], zs ++ nextIn⟩
  | .finish, zs, nextIn, availOut =>
      if (zs ++ nextIn).length ≤ availOut then ⟨zStreamEnd, nextIn.length, zs ++ nextIn, []⟩
      else ⟨zOk, nextIn.length, (zs ++ nextIn).take availOut, (zs ++ nextIn).drop availOut⟩

def collectingProgress : Progress collecting where
  Open _ := True
  Finishing _ := True
  work zs nextIn := zs.length + 2 * nextIn.length
  finishing _ _ := trivial
  noFlush := by
    rintro zs nextIn - hne
    refine ⟨rfl, trivial, ?_⟩
    have hpos := List.length_pos_iff.mpr hne
    show (zs ++ nextIn).length + 2 * (nextIn.drop nextIn.length).length < _
    rw [List.length_append, List.drop_length, List.length_nil]
    omega
  finish := by
    rintro zs nextIn -
    dsimp only [collecting]
    by_cases hfits : (zs ++ nextIn).length ≤ gzipCompressionBufferSize
    · rw [if_pos hfits]
      exact Or.inl rfl
    · rw [if_neg hfits]
      refine Or.inr ⟨rfl, trivial, ?_⟩
      dsimp only
      rw [List.drop_length, List.length_drop, List.length_nil]
      rw [gzipCompressionBufferSize] at hfits ⊢
      rw [List.length_append] at hfits ⊢
      omega

/-- A LOAD segment through the gzip IO; the kernel is interrupted once. -/
theorem write_ends_iff_interrupted :
    (∃ n ok s', (ticosCoreElfWriterWrite (gzio collecting (fio interruptedOnce true))
        ⟨62, 0, [⟨⟨1, 6, 0, 4096, 0, 3, 3, 0⟩, .callback (copying [(0, [1, 2]), (5, [0xef])])⟩]⟩).run
        n (ticosCoreElfWriteFileIoInit 200 [] eintr) = (some ok, s') ∧
      ((∃ c ∈ s'.log, c.Refused) → ok = false)) ↔
    ∀ n, ((ticosCoreElfWriterWrite (gzio collecting (fio interruptedOnce true))
        ⟨62, 0, [⟨⟨1, 6, 0, 4096, 0, 3, 3, 0⟩, .callback (copying [(0, [1, 2]), (5, [0xef])])⟩]⟩).run
        n (ticosCoreElfWriteFileIoInit 200 [] eintr)).2.Unstuck := by
  refine write_ends_iff ⟨1, ?_⟩ ?_ collectingProgress (Or.inr rfl) ?_ 200 eintr trivial
  · rintro (_ | i) hi
    · exact nomatch hi
    · exact nofun
  · rintro (_ | i) n hn
    · exact nomatch hn
    · obtain rfl : 4096 = n := Outcome.accept.inj hn
      exact Nat.succ_pos 4095
  · rintro s (_ | ⟨_, ⟨⟩⟩)
    exact copying_reports _

/-- **The hang**: a limit of 32 bytes, and `errno` happens to be `EINTR` when the writer is
    called; the ELF header is refused, and written again, and refused. -/
theorem stale_errno_hangs : Loops
    (ticosCoreElfWriterWrite (fio (fun _ => .accept 4096) true) ⟨62, 0, []⟩)
    (ticosCoreElfWriteFileIoInit 32 () eintr) := by
  have hstuck : Stuck (elfHeader 62 0 0).encode (ticosCoreElfWriteFileIoInit 32 () eintr) :=
    ⟨by decide, by decide, rfl⟩
  have hheader : Settles State.Unstuck
      (prvIoWriteAll (fio (fun _ => .accept 4096) true) (elfHeader 62 0 0).encode)
      (ticosCoreElfWriteFileIoInit 32 () eintr) (fun _ _ => False) :=
    Settles.stuck (fun _ _ h => stuck_round h) hstuck
  have hall : Settles State.Unstuck
      (prvWriteAll (fio (fun _ => .accept 4096) true) (elfHeader 62 0 0).encode)
      (ticosCoreElfWriteFileIoInit 32 () eintr) (fun _ _ => False) :=
    hheader.bind fun _ _ hno _ => hno.elim
  exact (Settles.bind (R := fun _ _ => False) hall fun _ _ hno _ => hno.elim).loops

end CoreElfFileIo
