import Ticosd.CoreElfFileIo

/-! # The gzip IO is transparent — but for the width of `avail_in`

    Data goes into the gzip IO in writes of any sizes; `deflate` takes from it what it
    likes and puts out what it likes, 4096 bytes at most in a call, and `prv_io_write_all`
    hands those to the next IO, which takes them in pieces of its own.  What stands for all
    this is one fact about a state: the bytes that the next IO has are the bytes that the
    stream has put out, and the stream has taken the data up to `next_in`.

    `prv_write` returns the size it was called with, but `avail_in` has 32 bits.  Of a write
    of `2 ^ 32` bytes or more the stream gets the remainder, and nobody hears of it
    (`gzip_transparent_iff`).

    A failure of the next IO other than an interrupt is never lost: the call that was made
    of the gzip IO is over, and says so. -/

namespace GzipIo

open CoreElf Fuel CoreElfFileIo

variable {ζ : Type}

/-! ## zlib -/

/-- A stream, from `z₀` on, that has taken some bytes and put out others. -/
inductive Stream (deflate : Deflate ζ) (z₀ : ζ) : List UInt8 → List UInt8 → ζ → Prop where
  | opened : Stream deflate z₀ [] [] z₀
  | call {taken emitted : List UInt8} {zs : ζ} (h : Stream deflate z₀ taken emitted zs)
      (flush : Flush) (nextIn : List UInt8) (availOut : Nat) :
      Stream deflate z₀
        (taken ++ nextIn.take (deflate flush zs nextIn availOut).consumed)
        (emitted ++ (deflate flush zs nextIn availOut).out)
        (deflate flush zs nextIn availOut).zs

/-- What is relied on of zlib: with `Z_STREAM_END`, what the stream has put out inflates to
    what it has taken. -/
def Inflates (deflate : Deflate ζ) (inflate : List UInt8 → Option (List UInt8)) (z₀ : ζ) :
    Prop :=
  ∀ taken emitted zs nextIn availOut, Stream deflate z₀ taken emitted zs →
    (deflate .finish zs nextIn availOut).rv = zStreamEnd →
    inflate (emitted ++ (deflate .finish zs nextIn availOut).out)
      = some (taken ++ nextIn.take (deflate .finish zs nextIn availOut).consumed)

/-! ## The next IO -/

/-- An IO that takes what `answer` says of what it is given, call by call, or fails; it
    makes a note of every call. -/
def sinkWrite (answer : Nat → Outcome) (data : List UInt8) (s : State ζ) :
    Option Nat × State ζ :=
  match answer s.calls with
  | .accept n =>
      (some (min n data.length),
        { s with
          calls := s.calls + 1
          file := s.file ++ data.take n
          log := ⟨data.length, s.errno, some (.accept n), s.counters, s.counters⟩ :: s.log })
  | .fail e =>
      (none,
        { s with
          calls := s.calls + 1
          errno := e
          log := ⟨data.length, s.errno, some (.fail e), s.counters, s.counters⟩ :: s.log })

def sink (answer : Nat → Outcome) : WriteIo ζ where
  write data := Prog.act (sinkWrite answer data)
  sync := pure true

/-- Since the state `s₀` a call of the next IO has failed, and not for an interrupt. -/
def FailedSince (s₀ s : State ζ) : Prop :=
  ∃ new, s.log = new ++ s₀.log ∧ ∃ c ∈ new, ∃ e, c.outcome = some (.fail e) ∧ e ≠ eintr

/-! ## A use of the gzip IO -/

/-- Writes that have to return their full size, and a sync at the end. -/
def session (io : WriteIo ζ) : List (List UInt8) → Prog (State ζ) Bool
  | [] => io.sync
  | data :: rest => do
      if (← io.write data) = some data.length then session io rest else pure false

/-- What the stream gets of a write. -/
def received (data : List UInt8) : List UInt8 := data.take (data.length % 2 ^ 32)

/-! ## Every byte arrives -/

section Bytes

variable {deflate : Deflate ζ} {inflate : List UInt8 → Option (List UInt8)} {z₀ : ζ}
  {answer : Nat → Outcome} {next : WriteIo ζ}

/-- One call of the IO: what it says it has taken stands behind the file. -/
def Takes (io : WriteIo ζ) : Prop :=
  ∀ data file zs nextIn,
    Meets (fun s : State ζ => s.file = file ∧ s.zs = zs ∧ s.nextIn = nextIn) (io.write data)
      (fun r s => s.file ++ data.drop (r.getD 0) = file ++ data ∧ s.zs = zs ∧ s.nextIn = nextIn)

/-- `prv_io_write_all` on the IO: all of the buffer, however it is taken. -/
def Appends (io : WriteIo ζ) : Prop :=
  ∀ data file zs nextIn,
    Meets (fun s : State ζ => s.file = file ∧ s.zs = zs ∧ s.nextIn = nextIn)
      (prvIoWriteAll io data)
      (fun ok s => ok = true → s.file = file ++ data ∧ s.zs = zs ∧ s.nextIn = nextIn)

theorem Takes.appends (hnext : Takes next) : Appends next := by
  intro data file zs nextIn
  let Inv : List UInt8 → State ζ → Prop := fun rest s =>
    s.file ++ rest = file ++ data ∧ s.zs = zs ∧ s.nextIn = nextIn
  refine (Meets.loop Inv ?_ data).weaken (fun s hs => ⟨congrArg (· ++ data) hs.1, hs.2⟩)
    fun _ _ h => h
  intro rest
  rw [writeAllRound]
  by_cases hrest : rest = []
  · rw [if_pos hrest]
    refine Meets.pure ?_
    rintro s ⟨hfile, hsame⟩ -
    rw [hrest, List.append_nil] at hfile
    exact ⟨hfile, hsame⟩
  · rw [if_neg hrest]
    have hcall : Meets (Inv rest) (next.write rest) (fun r s => Inv (rest.drop (r.getD 0)) s) := by
      rintro n s r s' ⟨hfile, hzs, hin⟩ hrun
      obtain ⟨hfile', hsame⟩ := hnext rest s.file s.zs s.nextIn n s r s' ⟨rfl, rfl, rfl⟩ hrun
      exact ⟨hfile'.trans hfile, hsame.1.trans hzs, hsame.2.trans hin⟩
    refine hcall.bind ?_
    rintro (_ | n)
    · -- an interrupt: the same bytes again
      refine Meets.bind (Q := fun _ s => Inv rest s) (Meets.act fun s hs => hs) ?_
      intro e
      by_cases he : e = eintr
      · rw [if_pos he]
        exact Meets.pure fun s hs => hs
      · rw [if_neg he]
        exact Meets.pure fun s _ => by simp
    · exact Meets.pure fun s hs => hs

theorem drop_min_length (data : List UInt8) (n : Nat) :
    data.drop (min n data.length) = data.drop n := by
  rcases Nat.le_total n data.length with hle | hle
  · rw [Nat.min_eq_left hle]
  · rw [Nat.min_eq_right hle, List.drop_length, List.drop_eq_nil_of_le hle]

theorem sink_takes : Takes (sink answer : WriteIo ζ) := by
  intro data file zs nextIn
  refine Meets.act ?_
  rintro s ⟨rfl, hsame⟩
  rw [sinkWrite]
  cases answer s.calls with
  | accept n =>
      refine ⟨?_, hsame⟩
      show (s.file ++ data.take n) ++ data.drop (min n data.length) = s.file ++ data
      rw [drop_min_length, List.append_assoc, List.take_append_drop]
  | fail e => exact ⟨rfl, hsame⟩

/-- The file IO takes what `write(2)` takes. -/
theorem fio_takes {kernel : Nat → Outcome} {fsync : Bool} :
    Takes (fio kernel fsync : WriteIo ζ) := by
  intro data file zs nextIn
  refine Meets.act ?_
  rintro s ⟨rfl, hsame⟩
  by_cases hrefused : s.maxSize < (s.writtenSize + data.length) % 2 ^ 64
  · rw [prvFioWrite_refused kernel hrefused]
    exact ⟨rfl, hsame⟩
  · cases hk : kernel s.calls with
    | accept n =>
        rw [prvFioWrite_accept hrefused hk]
        refine ⟨?_, hsame⟩
        show (s.file ++ data.take (min n data.length)) ++ data.drop (min n data.length)
          = s.file ++ data
        rw [List.append_assoc, List.take_append_drop]
    | fail e =>
        rw [prvFioWrite_fail hrefused hk]
        exact ⟨rfl, hsame⟩

/-- Output of the stream, handed on. -/
theorem handOn_meets (hnext : Appends next) (P : List UInt8 → ζ → List UInt8 → Prop)
    (out : List UInt8) :
    Meets (fun s : State ζ => P (s.file ++ out) s.zs s.nextIn) (prvIoWriteAll next out)
      (fun ok s => ok = true → P s.file s.zs s.nextIn) := by
  intro n s ok s' hs hrun hok
  obtain ⟨hfile, hzs, hin⟩ :=
    hnext out s.file s.zs s.nextIn n s ok s' ⟨rfl, rfl, rfl⟩ hrun hok
  rw [hfile, hzs, hin]
  exact hs

/-- What the next IO has is what the stream has put out, and the stream has taken the data
    up to `next_in`. -/
def Flows (deflate : Deflate ζ) (z₀ : ζ) (data file : List UInt8) (zs : ζ)
    (nextIn : List UInt8) : Prop :=
  ∃ taken, Stream deflate z₀ taken file zs ∧ taken ++ nextIn = data

/-- The stream has taken all of the data. -/
def Idle (deflate : Deflate ζ) (z₀ : ζ) (data file : List UInt8) (zs : ζ)
    (nextIn : List UInt8) : Prop :=
  Stream deflate z₀ data file zs ∧ nextIn = []

theorem noFlush_meets (data : List UInt8) :
    Meets (fun s : State ζ => Flows deflate z₀ data s.file s.zs s.nextIn)
      (callDeflate deflate .noFlush)
      (fun p s => Flows deflate z₀ data (s.file ++ p.2) s.zs s.nextIn) := by
  refine Meets.act ?_
  rintro s ⟨taken, hstream, hdata⟩
  refine ⟨_, hstream.call .noFlush s.nextIn gzipCompressionBufferSize, ?_⟩
  rw [List.append_assoc, List.take_append_drop]
  exact hdata

theorem finish_meets (hz : Inflates deflate inflate z₀) (data : List UInt8) :
    Meets (fun s : State ζ => Idle deflate z₀ data s.file s.zs s.nextIn)
      (callDeflate deflate .finish)
      (fun p s => Idle deflate z₀ data (s.file ++ p.2) s.zs s.nextIn ∧
        (p.1 = zStreamEnd → inflate (s.file ++ p.2) = some data)) := by
  refine Meets.act ?_
  rintro s ⟨hstream, hnone⟩
  have hcall := hstream.call .finish s.nextIn gzipCompressionBufferSize
  have hend := hz data s.file s.zs s.nextIn gzipCompressionBufferSize hstream
  rw [hnone, List.take_nil, List.append_nil] at hcall hend
  refine ⟨⟨?_, ?_⟩, ?_⟩
  · dsimp only
    rw [hnone]
    exact hcall
  · dsimp only
    rw [hnone]
    exact List.drop_nil
  · dsimp only
    rw [hnone]
    exact hend

/-- **A write to the gzip IO** that returns its size: the stream has got the part of the
    data that `avail_in` can say. -/
theorem write_meets (hnext : Appends next) (before data : List UInt8) :
    Meets (fun s : State ζ => Idle deflate z₀ before s.file s.zs s.nextIn)
      ((gzio deflate next).write data)
      (fun r s => r = some data.length →
        Idle deflate z₀ (before ++ received data) s.file s.zs s.nextIn) := by
  let Inv : Unit → State ζ → Prop := fun _ s =>
    Flows deflate z₀ (before ++ received data) s.file s.zs s.nextIn
  refine Meets.bind (Q := Inv) (Meets.act fun s hs => ⟨before, hs.1, rfl⟩) ?_
  rintro ⟨⟩
  refine Meets.bind (Q := fun ok s => ok = true →
    Idle deflate z₀ (before ++ received data) s.file s.zs s.nextIn) ?_ ?_
  · refine Meets.loop Inv ?_ ()
    rintro ⟨⟩
    refine Meets.bind (Q := fun availIn s => Inv () s ∧ s.nextIn = availIn)
      (Meets.act fun s hs => ⟨hs, rfl⟩) ?_
    intro availIn
    by_cases hempty : availIn = []
    · rw [if_pos hempty]
      refine Meets.pure ?_
      rintro s ⟨⟨taken, hstream, hdata⟩, hin⟩ -
      rw [hin, hempty, List.append_nil] at hdata
      exact ⟨hdata ▸ hstream, hin.trans hempty⟩
    · rw [if_neg hempty]
      refine Meets.bind ((noFlush_meets _).weaken (fun s hs => hs.1) fun _ _ h => h) ?_
      rintro ⟨rv, out⟩
      dsimp only
      by_cases hrv : rv ≠ zOk
      · rw [if_pos hrv]
        exact Meets.pure fun s _ => nofun
      · rw [if_neg hrv]
        refine Meets.bind (handOn_meets hnext (Flows deflate z₀ (before ++ received data)) out) ?_
        rintro (_ | _)
        · exact Meets.pure fun s _ => nofun
        · exact Meets.pure fun s hs => hs rfl
  · rintro (_ | _)
    · exact Meets.pure fun s _ => nofun
    · exact Meets.pure fun s hs _ => hs rfl

/-- **The sync** that returns true: what the next IO has inflates to what has been taken. -/
theorem sync_meets (hnext : Appends next) (hz : Inflates deflate inflate z₀)
    (data : List UInt8) :
    Meets (fun s : State ζ => Idle deflate z₀ data s.file s.zs s.nextIn)
      (gzio deflate next).sync (fun ok s => ok = true → inflate s.file = some data) := by
  let Inv : Unit → State ζ → Prop := fun _ s => Idle deflate z₀ data s.file s.zs s.nextIn
  refine Meets.loop Inv ?_ ()
  rintro ⟨⟩
  refine Meets.bind (finish_meets hz data) ?_
  rintro ⟨rv, out⟩
  dsimp only
  by_cases hrv : rv ≠ zOk ∧ rv ≠ zStreamEnd
  · rw [if_pos hrv]
    exact Meets.pure fun s _ => nofun
  · rw [if_neg hrv]
    refine Meets.bind (handOn_meets hnext (fun file zs nextIn =>
      Idle deflate z₀ data file zs nextIn ∧ (rv = zStreamEnd → inflate file = some data)) out) ?_
    rintro (_ | _)
    · exact Meets.pure fun s _ => nofun
    · by_cases hend : rv = zStreamEnd
      · show Meets _ (if rv = zStreamEnd then _ else _) _
        rw [if_pos hend]
        exact Meets.pure fun s hs _ => (hs rfl).2 hend
      · show Meets _ (if rv = zStreamEnd then _ else _) _
        rw [if_neg hend]
        exact Meets.pure fun s hs => (hs rfl).1

/-- A whole session. -/
theorem session_meets (hz : Inflates deflate inflate z₀) (datas : List (List UInt8))
    (before : List UInt8) :
    Meets (fun s : State ζ => Idle deflate z₀ before s.file s.zs s.nextIn)
      (session (gzio deflate (sink answer)) datas)
      (fun ok s => ok = true →
        inflate s.file = some (before ++ (datas.map received).flatten)) := by
  induction datas generalizing before with
  | nil =>
      rw [List.map_nil, List.flatten_nil, List.append_nil]
      exact sync_meets sink_takes.appends hz before
  | cons data rest ih =>
      refine Meets.bind (write_meets sink_takes.appends before data) ?_
      intro r
      by_cases hr : r = some data.length
      · refine (if_pos hr).symm ▸ (ih (before ++ received data)).weaken (fun s hs => hs hr) ?_
        intro ok s h hok
        rw [List.map_cons, List.flatten_cons, ← List.append_assoc]
        exact h hok
      · exact (if_neg hr).symm ▸ Meets.pure fun s _ => nofun

end Bytes

/-! ## No failure is lost -/

section Failures

variable {deflate : Deflate ζ} {answer : Nat → Outcome} {s₀ : State ζ}

theorem not_failedSince_self (s : State ζ) : ¬ FailedSince s s := by
  rintro ⟨new, hlog, c, hc, -⟩
  rw [List.eq_nil_of_length_eq_zero (l := new) (by
    have hlen := congrArg List.length hlog
    rw [List.length_append] at hlen
    omega)] at hc
  exact nomatch hc

/-- The call that sets off the alarm. -/
theorem failedSince_call {s s' : State ζ} {c : Call} (hlog : s'.log = c :: s.log)
    (hs : ¬ FailedSince s₀ s) (hs' : FailedSince s₀ s') :
    ∃ e, c.outcome = some (.fail e) ∧ e ≠ eintr := by
  obtain ⟨new, hnew, d, hd, e, hfail, he⟩ := hs'
  rw [hlog] at hnew
  cases new with
  | nil => exact nomatch hd
  | cons b new =>
      obtain ⟨rfl, hrest⟩ := List.cons.inj hnew
      rcases List.mem_cons.mp hd with rfl | hmem
      · exact ⟨e, hfail, he⟩
      · exact absurd ⟨new, hrest, d, hmem, e, hfail, he⟩ hs

/-- An action that calls nothing. -/
theorem quiet_alarms {α : Type} {f : State ζ → α × State ζ} (hlog : ∀ s, (f s).2.log = s.log) :
    Alarms (FailedSince s₀) (Prog.act f) (fun _ _ => False) := by
  refine Alarms.act fun s hs hs' => hs ?_
  rw [FailedSince, hlog s] at hs'
  exact hs'

/-- After such an action. -/
theorem quiet_bind {α β : Type} {f : State ζ → α × State ζ} {g : α → Prog (State ζ) β}
    {Q : β → State ζ → Prop} (hlog : ∀ s, (f s).2.log = s.log)
    (hg : ∀ a, Alarms (FailedSince s₀) (g a) Q) :
    Alarms (FailedSince s₀) (Prog.act f >>= g) Q :=
  (quiet_alarms hlog).bind hg fun _ _ h => h.elim

theorem sinkWrite_alarms (data : List UInt8) :
    Alarms (FailedSince s₀) ((sink answer).write data : Prog (State ζ) (Option Nat))
      (fun r s => r = none ∧ s.errno ≠ eintr) := by
  refine Alarms.act fun s hs hs' => ?_
  rw [sinkWrite] at hs' ⊢
  cases hanswer : answer s.calls with
  | accept n =>
      rw [hanswer] at hs'
      obtain ⟨e, he, -⟩ := failedSince_call rfl hs hs'
      exact nomatch he
  | fail e =>
      rw [hanswer] at hs'
      obtain ⟨e', he', hne⟩ := failedSince_call rfl hs hs'
      obtain rfl : e = e' := by simpa using he'
      exact ⟨rfl, hne⟩

/-- `prv_io_write_all` asks `errno` and gives up. -/
theorem writeAll_alarms (data : List UInt8) :
    Alarms (FailedSince s₀) (prvIoWriteAll (sink answer) data : Prog (State ζ) Bool)
      (fun ok _ => ok = false) := by
  refine Alarms.loop ?_ data
  intro rest
  rw [writeAllRound]
  by_cases hrest : rest = []
  · rw [if_pos hrest]
    exact Alarms.pure _
  · rw [if_neg hrest]
    refine (sinkWrite_alarms rest).bind ?_ ?_
    · rintro (_ | n)
      · refine quiet_bind (fun _ => rfl) fun e => ?_
        by_cases he : e = eintr
        · rw [if_pos he]
          exact Alarms.pure _
        · rw [if_neg he]
          exact Alarms.pure _
      · exact Alarms.pure _
    · rintro _ s ⟨rfl, he⟩ n
      have herrno : (getErrno : Prog (State ζ) Nat).run n s = (some s.errno, s) := rfl
      dsimp only
      rw [Prog.run_bind_some herrno, if_neg he]
      exact ⟨_, rfl, false, rfl, rfl⟩

/-- **A write to the gzip IO** passes the failure on. -/
theorem write_alarms (data : List UInt8) :
    Alarms (FailedSince s₀) ((gzio deflate (sink answer)).write data) (fun r _ => r = none) := by
  refine quiet_bind (fun _ => rfl) fun _ => ?_
  refine Alarms.bind (Q := fun ok _ => ok = false) ?_ ?_ ?_
  · refine Alarms.loop ?_ ()
    rintro ⟨⟩
    refine quiet_bind (fun _ => rfl) fun availIn => ?_
    by_cases hempty : availIn = []
    · rw [if_pos hempty]
      exact Alarms.pure _
    · rw [if_neg hempty]
      refine quiet_bind (fun _ => rfl) ?_
      rintro ⟨rv, out⟩
      dsimp only
      by_cases hrv : rv ≠ zOk
      · rw [if_pos hrv]
        exact Alarms.pure _
      · rw [if_neg hrv]
        refine (writeAll_alarms out).bind ?_ ?_
        · rintro (_ | _) <;> exact Alarms.pure _
        · rintro _ s rfl n
          exact ⟨_, rfl, false, rfl, rfl⟩
  · rintro (_ | _) <;> exact Alarms.pure _
  · rintro _ s rfl n
    exact ⟨none, rfl, rfl⟩

/-- **The sync** does. -/
theorem sync_alarms :
    Alarms (FailedSince s₀) (gzio deflate (sink answer)).sync (fun ok _ => ok = false) := by
  refine Alarms.loop ?_ ()
  rintro ⟨⟩
  refine quiet_bind (fun _ => rfl) ?_
  rintro ⟨rv, out⟩
  dsimp only
  by_cases hrv : rv ≠ zOk ∧ rv ≠ zStreamEnd
  · rw [if_pos hrv]
    exact Alarms.pure _
  · rw [if_neg hrv]
    refine (writeAll_alarms out).bind ?_ ?_
    · rintro (_ | _)
      · exact Alarms.pure _
      · by_cases hend : rv = zStreamEnd
        · show Alarms _ (if rv = zStreamEnd then _ else _) _
          rw [if_pos hend]
          exact Alarms.pure _
        · show Alarms _ (if rv = zStreamEnd then _ else _) _
          rw [if_neg hend]
          exact Alarms.pure _
    · rintro _ s rfl n
      exact ⟨_, rfl, false, rfl, rfl⟩

end Failures

/-! ## Transparency -/

theorem received_of_short {data : List UInt8} (h : data.length < 2 ^ 32) :
    received data = data := by
  rw [received, Nat.mod_eq_of_lt h, List.take_length]

theorem received_length_le (datas : List (List UInt8)) :
    (datas.map received).flatten.length ≤ datas.flatten.length := by
  induction datas with
  | nil => exact Nat.le_refl _
  | cons data rest ih =>
      rw [List.map_cons, List.flatten_cons, List.flatten_cons, List.length_append,
        List.length_append]
      exact Nat.add_le_add (List.length_take_le' _ _) ih

/-- The stream gets all of the data exactly if each write is below `2 ^ 32` bytes. -/
theorem received_all_iff (datas : List (List UInt8)) :
    (datas.map received).flatten = datas.flatten ↔ ∀ data ∈ datas, data.length < 2 ^ 32 := by
  induction datas with
  | nil => exact iff_of_true rfl fun _ h => nomatch h
  | cons data rest ih =>
      rw [List.map_cons, List.flatten_cons, List.flatten_cons, List.forall_mem_cons]
      constructor
      · intro heq
        -- nothing is longer than it was, so each part has its length
        have hlen := congrArg List.length heq
        have hrest := received_length_le rest
        rw [List.length_append, List.length_append, received, List.length_take] at hlen
        have hdata : data.length < 2 ^ 32 := by omega
        rw [received_of_short hdata] at heq
        exact ⟨hdata, ih.mp (List.append_cancel_left heq)⟩
      · rintro ⟨hdata, hrest⟩
        rw [received_of_short hdata, ih.mpr hrest]

/-- A failure of the next IO, other than an interrupt, is what the call in progress
    returns. -/
def ReportsFailures (io : WriteIo ζ) : Prop :=
  (∀ data n s, FailedSince s ((io.write data).run n s).2 → ((io.write data).run n s).1 = some none) ∧
    ∀ n s, FailedSince s (io.sync.run n s).2 → (io.sync.run n s).1 = some false

theorem gzio_reports (deflate : Deflate ζ) (answer : Nat → Outcome) :
    ReportsFailures (gzio deflate (sink answer)) := by
  constructor
  · intro data n s hfailed
    obtain ⟨r, hr, rfl⟩ := write_alarms data n s (not_failedSince_self s) hfailed
    exact hr
  · intro n s hfailed
    obtain ⟨ok, hok, rfl⟩ := sync_alarms n s (not_failedSince_self s) hfailed
    exact hok

/-- **The gzip IO is transparent exactly if no write has `2 ^ 32` bytes or more**: after
    writes that all return their size and a sync that returns true, what the next IO has
    taken inflates to what was written; and its failures are reported, in any case. -/
theorem gzip_transparent_iff {deflate : Deflate ζ} {inflate : List UInt8 → Option (List UInt8)}
    {z₀ : ζ} (hz : Inflates deflate inflate z₀) (answer : Nat → Outcome)
    (datas : List (List UInt8)) {maxSize errno n : Nat} {s : State ζ}
    (hrun : (session (gzio deflate (sink answer)) datas).run n
      (ticosCoreElfWriteFileIoInit maxSize z₀ errno) = (some true, s)) :
    (inflate s.file = some datas.flatten ∧ ReportsFailures (gzio deflate (sink answer))) ↔
      ∀ data ∈ datas, data.length < 2 ^ 32 := by
  have hidle : Idle deflate z₀ [] (ticosCoreElfWriteFileIoInit maxSize z₀ errno).file
      (ticosCoreElfWriteFileIoInit maxSize z₀ errno).zs
      (ticosCoreElfWriteFileIoInit maxSize z₀ errno).nextIn := ⟨Stream.opened, rfl⟩
  have hfile := session_meets hz datas [] n _ true s hidle hrun rfl
  rw [hfile, List.nil_append, Option.some.injEq, and_iff_left (gzio_reports deflate answer)]
  exact received_all_iff datas

/-! ## A stream -/

/-- What zlib makes of the empty text and of `abc`. -/
def gzipHeader : List UInt8 := [0x1f, 0x8b, 8, 0, 0, 0, 0, 0, 0, 3]

def gzipEmpty : List UInt8 := gzipHeader ++ [3, 0, 0, 0, 0, 0, 0, 0, 0, 0]

def gzipAbc : List UInt8 :=
  gzipHeader ++ [0x4b, 0x4c, 0x4a, 0x06, 0x00, 0xc2, 0x41, 0x24, 0x35, 3, 0, 0, 0]

/-- Another format stands for all other texts. -/
def tableGzip (input : List UInt8) : List UInt8 :=
  if input = [] then gzipEmpty else if input = [97, 98, 99] then gzipAbc else 0 :: input

def tableInflate (bytes : List UInt8) : Option (List UInt8) :=
  if bytes = gzipEmpty then some []
  else if bytes = gzipAbc then some [97, 98, 99]
  else match bytes with
    | 0 :: input => some input
    | _ => none

theorem tableInflate_gzip (input : List UInt8) : tableInflate (tableGzip input) = some input := by
  rw [tableGzip]
  by_cases hempty : input = []
  · rw [if_pos hempty, hempty]
    rfl
  · rw [if_neg hempty]
    by_cases habc : input = [97, 98, 99]
    · rw [if_pos habc, habc]
      rfl
    · rw [if_neg habc, tableInflate, if_neg (fun h => nomatch h), if_neg (fun h => nomatch h)]

/-- A stream that puts everything out at the end: its input, and what is left to put out. -/
structure TableStream where
  input : List UInt8
  left : Option (List UInt8)
  deriving DecidableEq

def emit (input left : List UInt8) (consumed availOut : Nat) : Deflated TableStream where
  rv := if left.length ≤ availOut then zStreamEnd else zOk
  consumed := consumed
  out := left.take availOut
  zs := ⟨input, some (left.drop availOut)⟩

def tableDeflate : Deflate TableStream := fun flush zs nextIn availOut =>
  match flush, zs.left with
  | .noFlush, none => ⟨zOk, nextIn.length, [], ⟨zs.input ++ nextIn, none⟩⟩
  | .noFlush, some _ => ⟨-2, 0, [], zs⟩
  | .finish, none => emit (zs.input ++ nextIn) (tableGzip (zs.input ++ nextIn)) nextIn.length availOut
  | .finish, some left => emit zs.input left 0 availOut

/-- What is out and what is left is the file of the input. -/
def TableStream.Holds (zs : TableStream) (taken emitted : List UInt8) : Prop :=
  zs.input = taken ∧ match zs.left with
    | none => emitted = []
    | some left => emitted ++ left = tableGzip taken

theorem tableStream_holds {taken emitted : List UInt8} {zs : TableStream}
    (h : Stream tableDeflate ⟨[], none⟩ taken emitted zs) : zs.Holds taken emitted := by
  induction h with
  | opened => exact ⟨rfl, rfl⟩
  | @call taken emitted zs _ flush nextIn availOut ih =>
      obtain ⟨input, left⟩ := zs
      obtain ⟨hinput, hleft⟩ := ih
      obtain rfl : input = taken := hinput
      cases flush with
      | noFlush =>
          cases left with
          | none =>
              refine ⟨(congrArg (input ++ ·) List.take_length).symm, ?_⟩
              exact (List.append_nil emitted).trans hleft
          | some left =>
              refine ⟨(List.append_nil input).symm, ?_⟩
              show emitted ++ [] ++ left = tableGzip (input ++ [])
              rw [List.append_nil, List.append_nil]
              exact hleft
      | finish =>
          cases left with
          | none =>
              refine ⟨(congrArg (input ++ ·) List.take_length).symm, ?_⟩
              show emitted ++ (tableGzip (input ++ nextIn)).take availOut
                ++ (tableGzip (input ++ nextIn)).drop availOut
                = tableGzip (input ++ nextIn.take nextIn.length)
              rw [List.append_assoc, List.take_append_drop, List.take_length,
                show emitted = [] from hleft]
              rfl
          | some left =>
              refine ⟨(List.append_nil input).symm, ?_⟩
              show emitted ++ left.take availOut ++ left.drop availOut = tableGzip (input ++ [])
              rw [List.append_assoc, List.take_append_drop, List.append_nil]
              exact hleft

theorem table_inflates : Inflates tableDeflate tableInflate ⟨[], none⟩ := by
  intro taken emitted zs nextIn availOut hstream hend
  have hafter := tableStream_holds (hstream.call .finish nextIn availOut)
  have hleft : ∃ left : List UInt8, left.length ≤ availOut ∧
      (tableDeflate .finish zs nextIn availOut).zs.left = some (left.drop availOut) := by
    obtain ⟨input, left⟩ := zs
    cases left with
    | none =>
        refine ⟨tableGzip (input ++ nextIn), ?_, rfl⟩
        by_contra hlong
        exact absurd ((if_neg hlong).symm.trans hend) (by decide)
    | some left =>
        refine ⟨left, ?_, rfl⟩
        by_contra hlong
        exact absurd ((if_neg hlong).symm.trans hend) (by decide)
  obtain ⟨left, hlen, hleft⟩ := hleft
  obtain ⟨-, hholds⟩ := hafter
  rw [hleft, List.drop_eq_nil_of_le hlen] at hholds
  rw [← List.append_nil (emitted ++ _), hholds, tableInflate_gzip]

/-- A next IO that is interrupted, takes three bytes, and then all that it is given. -/
def interrupted : Nat → Outcome
  | 0 => .fail eintr
  | 1 => .accept 3
  | _ => .accept gzipCompressionBufferSize

theorem gzip_transparent_iff_abc :
    tableInflate ((session (gzio tableDeflate (sink interrupted)) [[97], [98, 99]]).run 8
        (ticosCoreElfWriteFileIoInit 0 ⟨[], none⟩ 0)).2.file = some [[97], [98, 99]].flatten ∧
      ReportsFailures (gzio tableDeflate (sink interrupted)) :=
  (gzip_transparent_iff table_inflates interrupted [[97], [98, 99]]
    (Prod.ext (by decide +kernel) rfl)).mpr (by decide)

/-- A write whose size `avail_in` cannot say at all: it returns the size, and the stream has
    got nothing. -/
theorem lost_write (deflate : Deflate ζ) (next : WriteIo ζ) {data : List UInt8}
    (hsize : data.length % 2 ^ 32 = 0) (n : Nat) (s : State ζ) :
    ((gzio deflate next).write data).run (n + 1) s
      = (some (some data.length), { s with nextIn := [] }) := by
  have hin : data.take (data.length % 2 ^ 32) = [] := by rw [hsize, List.take_zero]
  have hset : (Prog.act fun s : State ζ =>
      ((), { s with nextIn := data.take (data.length % 2 ^ 32) })).run (n + 1) s
        = (some (), { s with nextIn := [] }) := by rw [Prog.run_act, hin]
  have hloop : (Prog.loop (gzipRound deflate next) ()).run (n + 1) { s with nextIn := [] }
      = (some true, { s with nextIn := [] }) := rfl
  show (prvWrite deflate next data).run (n + 1) s = _
  rw [prvWrite, Prog.run_bind_some hset, Prog.run_bind_some hloop]
  rfl

/-- A session of one such write. -/
theorem lost_session {data : List UInt8} (hsize : data.length % 2 ^ 32 = 0) :
    ∃ s, (session (gzio tableDeflate (sink interrupted)) [data]).run 8
        (ticosCoreElfWriteFileIoInit 0 ⟨[], none⟩ 0) = (some true, s) ∧
      tableInflate s.file = some [] := by
  refine ⟨((prvSync tableDeflate (sink interrupted)).run 8
    (ticosCoreElfWriteFileIoInit 0 ⟨[], none⟩ 0)).2, ?_, by decide +kernel⟩
  rw [session, Prog.run_bind_some (lost_write _ _ hsize 7 _), if_pos rfl]
  exact Prod.ext (by decide +kernel) rfl

theorem large_write_lost :
    ∃ s, (session (gzio tableDeflate (sink interrupted)) [List.replicate (2 ^ 32) 0]).run 8
        (ticosCoreElfWriteFileIoInit 0 ⟨[], none⟩ 0) = (some true, s) ∧
      tableInflate s.file ≠ some [List.replicate (2 ^ 32) 0].flatten := by
  have hsize : (List.replicate (2 ^ 32) (0 : UInt8)).length % 2 ^ 32 = 0 := by
    rw [List.length_replicate, Nat.mod_self]
  obtain ⟨s, hrun, hout⟩ := lost_session hsize
  refine ⟨s, hrun, ?_⟩
  rw [hout, List.flatten_singleton, ne_eq, Option.some.injEq, eq_comm, List.replicate_eq_nil_iff]
  decide

end GzipIo
