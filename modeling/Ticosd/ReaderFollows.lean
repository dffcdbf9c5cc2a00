import Ticosd.CoreElfReader

/-! # The reader and its handler — what carries over from one handler to another

    The reader hands the state of its handler on and never looks into it.  If the
    callbacks of two handlers keep a relation between their states, and their scripts ask
    for the same data, then two readers that differ in the handler alone go through the
    same stream in the same way, with states in that relation (`follows_readAll`).

    The relation may change once, when the handler is told that all is done. -/

namespace CoreElfReader

open CoreElf

variable {σ τ : Type} {P Q : τ → σ → Prop} {h : Handler τ} {g : Handler σ}

/-- Two scripts that ask for the same data, with related states all the way. -/
inductive ScriptFollows (P : τ → σ → Prop) : Script τ → Script σ → Prop where
  | done {s : τ} {t : σ} (hst : P s t) : ScriptFollows P (.done s) (.done t)
  | read {s : τ} {t : σ} {atPos : Nat} {nullBuffer : Bool} {bufferSize : Nat}
      {next : τ → Nat → List UInt8 → Script τ} {next' : σ → Nat → List UInt8 → Script σ}
      (hst : P s t) (hnext : ∀ s' t' n bs, P s' t' → ScriptFollows P (next s' n bs) (next' t' n bs)) :
      ScriptFollows P (.read s atPos nullBuffer bufferSize next)
        (.read t atPos nullBuffer bufferSize next')

/-- The callbacks keep the relation `P` up to the last one, which gives `Q`. -/
structure Follows (P Q : τ → σ → Prop) (h : Handler τ) (g : Handler σ) : Prop where
  elfHeader : ∀ s t header, P s t → P (h.handleElfHeader s header) (g.handleElfHeader t header)
  segments : ∀ s t segments, P s t →
    ScriptFollows P (h.handleSegments s segments) (g.handleSegments t segments)
  warning : ∀ s t msg, P s t → P (h.handleWarning s msg) (g.handleWarning t msg)
  done : ∀ s t, P s t → Q (h.handleDone s) (g.handleDone t)

/-- A reader with another state of another handler. -/
def Reader.carry (r : Reader σ) (s : τ) : Reader τ where
  io := r.io
  malloc := r.malloc
  action := r.action
  streamPos := r.streamPos
  elfHeader := r.elfHeader
  state := s
  log := r.log

/-- Two readers that differ in their handlers only, with related states. -/
def Pair (P : τ → σ → Prop) (r : Reader τ) (r' : Reader σ) : Prop :=
  ∃ s, r = r'.carry s ∧ P s r'.state

theorem Pair.warn {r : Reader τ} {r' : Reader σ} (hf : Follows P Q h g) (hp : Pair P r r')
    (msg : String) : Pair P (r.warn h msg) (r'.warn g msg) := by
  obtain ⟨s, rfl, hst⟩ := hp
  exact ⟨_, rfl, hf.warning s r'.state msg hst⟩

theorem Pair.setAction {r : Reader τ} {r' : Reader σ} (hp : Pair P r r') (a : Option Action) :
    Pair P { r with action := a } { r' with action := a } := by
  obtain ⟨s, rfl, hst⟩ := hp
  exact ⟨s, rfl, hst⟩

/-- The same test on both sides. -/
theorem Pair.branch {c c' : Prop} [Decidable c] [Decidable c'] (hc : c ↔ c') {a b : Reader τ}
    {a' b' : Reader σ} (ht : Pair P a a') (he : Pair P b b') :
    Pair P (if c then a else b) (if c' then a' else b') := by
  by_cases h : c
  · rw [if_pos h, if_pos (hc.mp h)]
    exact ht
  · rw [if_neg h, if_neg (fun h' => h (hc.mpr h'))]
    exact he

/-- Both read the same bytes. -/
theorem Pair.readAll {r : Reader τ} {r' : Reader σ} (hf : Follows P Q h g) (hp : Pair P r r')
    (size : Nat) : ∃ bs q q', prvReadAll h r size = (bs, q) ∧ prvReadAll g r' size = (bs, q') ∧
      Pair P q q' := by
  obtain ⟨s, rfl, hst⟩ := hp
  -- the IO object is the same on both sides, so in each round both take the same branch;
  -- only the warning of a failed read reaches the handlers
  fun_induction prvReadAll g r' size generalizing s with
  | case1 r =>
      refine ⟨[], r.carry s, r, ?_, rfl, s, rfl, hst⟩
      rw [prvReadAll, if_pos rfl]
  | case2 r size hsize io hread ih =>
      obtain ⟨bs, q, q', heq, heq', hq⟩ := ih s hst
      refine ⟨bs, q, q', ?_, heq', hq⟩
      rw [prvReadAll, if_neg hsize]
      split
      · rename_i io' hread'
        obtain rfl := (Prod.mk.inj (hread.symm.trans hread')).2
        exact heq
      · rename_i hread'
        cases (Prod.mk.inj (hread.symm.trans hread')).1
      · rename_i hread'
        cases (Prod.mk.inj (hread.symm.trans hread')).1
  | case3 r size hsize e io hread =>
      have hp : Pair P (Reader.carry { r with io := io } s) { r with io := io } := ⟨s, rfl, hst⟩
      refine ⟨[], _, _, ?_, rfl, hp.warn hf ("read() failure: " ++ e)⟩
      rw [prvReadAll, if_neg hsize]
      split
      · rename_i hread'
        cases (Prod.mk.inj (hread.symm.trans hread')).1
      · rename_i e' io' hread'
        obtain ⟨he, rfl⟩ := Prod.mk.inj (hread.symm.trans hread')
        obtain rfl : e = e' := by injection he
        rfl
      · rename_i hread'
        cases (Prod.mk.inj (hread.symm.trans hread')).1
  | case4 r size hsize bs io hread hlen =>
      refine ⟨[], _, _, ?_, rfl, s, rfl, hst⟩
      rw [prvReadAll, if_neg hsize]
      split
      · rename_i hread'
        cases (Prod.mk.inj (hread.symm.trans hread')).1
      · rename_i hread'
        cases (Prod.mk.inj (hread.symm.trans hread')).1
      · rename_i bs' io' hread'
        obtain ⟨hbs, rfl⟩ := Prod.mk.inj (hread.symm.trans hread')
        obtain rfl : bs = bs' := by injection hbs
        rw [if_pos hlen]
        rfl
  | case5 r size hsize bs io hread hlen rest ih =>
      obtain ⟨bs', q, q', heq, heq', hq⟩ := ih s hst
      refine ⟨bs ++ bs', q, q', ?_, ?_, hq⟩
      · rw [prvReadAll, if_neg hsize]
        split
        · rename_i hread'
          cases (Prod.mk.inj (hread.symm.trans hread')).1
        · rename_i hread'
          cases (Prod.mk.inj (hread.symm.trans hread')).1
        · rename_i bs'' io' hread'
          obtain ⟨hbs, rfl⟩ := Prod.mk.inj (hread.symm.trans hread')
          obtain rfl : bs = bs'' := by injection hbs
          rw [if_neg hlen]
          exact congrArg (fun t => (bs ++ t.1, t.2)) heq
      · exact congrArg (fun t => (bs ++ t.1, t.2)) heq'

/-- Both get the same segment data. -/
theorem Pair.readSegmentData {r : Reader τ} {r' : Reader σ} (hf : Follows P Q h g)
    (hp : Pair P r r') (atPos bufferSize : Nat) :
    ∃ bs q q', ticosCoreElfReaderReadSegmentData h r atPos bufferSize = (bs, q) ∧
      ticosCoreElfReaderReadSegmentData g r' atPos bufferSize = (bs, q') ∧ Pair P q q' := by
  have hpos : r.streamPos = r'.streamPos := by
    obtain ⟨s, rfl, -⟩ := hp
    rfl
  simp only [ticosCoreElfReaderReadSegmentData, hpos]
  by_cases hpast : atPos < r'.streamPos
  · rw [if_pos hpast, if_pos hpast]
    exact ⟨[], r, r', rfl, rfl, hp⟩
  · rw [if_neg hpast, if_neg hpast]
    by_cases hskip : atPos - r'.streamPos > 0
    · obtain ⟨bs, q, q', heq, heq', hq⟩ := hp.readAll hf (atPos - r'.streamPos)
      rw [if_pos hskip, if_pos hskip, heq, heq']
      by_cases hshort : bs.length < atPos - r'.streamPos
      · simp only [if_pos hshort]
        exact ⟨[], q, q', rfl, rfl, hq⟩
      · simp only [if_neg hshort]
        exact hq.readAll hf bufferSize
    · rw [if_neg hskip, if_neg hskip]
      exact hp.readAll hf bufferSize

/-- The callbacks see the same. -/
theorem Pair.runScript {r : Reader τ} {r' : Reader σ} (hf : Follows P Q h g) (hp : Pair P r r')
    {script : Script τ} {script' : Script σ} (hs : ScriptFollows P script script') :
    Pair P (runScript h r script) (runScript g r' script') := by
  induction hs generalizing r r' with
  | done hst =>
      obtain ⟨s, rfl, -⟩ := hp
      exact ⟨_, rfl, hst⟩
  | @read s t atPos nullBuffer bufferSize next next' hst hnext ih =>
      obtain ⟨s₀, rfl, -⟩ := hp
      have hcall : Pair P (Reader.carry { r' with state := t } s) { r' with state := t } :=
        ⟨s, rfl, hst⟩
      obtain ⟨bs, q, q', heq, heq', s₁, rfl, hst₁⟩ := hcall.readSegmentData hf atPos bufferSize
      have heq₀ : ticosCoreElfReaderReadSegmentData h { Reader.carry r' s₀ with state := s }
          atPos bufferSize = (bs, q'.carry s₁) := heq
      simp only [CoreElfReader.runScript, heq₀, heq']
      exact ih _ _ _ _ hst₁ ⟨s₁, rfl, hst₁⟩

/-! ## Actions -/

/-- Every action but the last one keeps the relation. -/
theorem Pair.perform {r : Reader τ} {r' : Reader σ} (hf : Follows P Q h g) (hp : Pair P r r')
    {a : Action} (ha : a ≠ .done) : Pair P (a.perform h r) (a.perform g r') := by
  obtain ⟨s, rfl, hst⟩ := hp
  have hp : Pair P (r'.carry s) r' := ⟨s, rfl, hst⟩
  cases a with
  | done => exact absurd rfl ha
  | prepareSegmentHeaders =>
      simp only [Action.perform, prvActionPrepareSegmentHeaders]
      exact Pair.branch Iff.rfl ((hp.warn hf _).setAction _) (hp.setAction _)
  | skipToSegmentHeaders =>
      obtain ⟨bs, q, q', heq, heq', hq⟩ := hp.readAll hf (r'.elfHeader.phoff - r'.streamPos)
      have heq : prvReadAll h (r'.carry s) ((r'.carry s).elfHeader.phoff
          - (r'.carry s).streamPos) = (bs, q) := heq
      simp only [Action.perform, prvActionSkipToSegmentHeaders, heq, heq']
      exact Pair.branch Iff.rfl ((hq.warn hf _).setAction _) (hq.setAction _)
  | readSegmentHeaders =>
      obtain ⟨bs, q, q', heq, heq', hq⟩ := hp.readAll hf (r'.elfHeader.phnum * phdrSize)
      have heq : prvReadAll h (r'.carry s) ((r'.carry s).elfHeader.phnum * phdrSize)
          = (bs, q) := heq
      simp only [Action.perform, prvActionReadSegmentHeaders, heq, heq']
      refine Pair.setAction (Pair.branch Iff.rfl ?_ (hq.warn hf _)) _
      -- the handler is called with the table, on both sides
      obtain ⟨s₁, rfl, hst₁⟩ := hq
      have hcalled : Pair P
          (Reader.carry { q' with
            log := q'.log ++ [.segments (decodeTable r'.elfHeader.phnum bs)] } s₁)
          { q' with log := q'.log ++ [.segments (decodeTable r'.elfHeader.phnum bs)] } :=
        ⟨s₁, rfl, hst₁⟩
      exact hcalled.runScript hf (hf.segments s₁ q'.state _ hst₁)
  | readElfHeader =>
      obtain ⟨bs, q, q', heq, heq', hq⟩ := hp.readAll hf ehdrSize
      simp only [Action.perform, prvActionReadElfHeader, heq, heq']
      refine Pair.branch Iff.rfl ((hq.warn hf _).setAction _) ?_
      -- the handler is called only with a header that is a core's
      obtain ⟨s₁, rfl, hst₁⟩ := hq
      have hheader : Pair P (Reader.carry { q' with elfHeader := Ehdr.decode bs } s₁)
          { q' with elfHeader := Ehdr.decode bs } := ⟨s₁, rfl, hst₁⟩
      have hcalled : Pair P
          (Reader.carry { q' with
            elfHeader := Ehdr.decode bs
            log := q'.log ++ [.elfHeader (Ehdr.decode bs)] }
            (h.handleElfHeader s₁ (Ehdr.decode bs)))
          { q' with
            elfHeader := Ehdr.decode bs
            state := g.handleElfHeader q'.state (Ehdr.decode bs)
            log := q'.log ++ [.elfHeader (Ehdr.decode bs)] } :=
        ⟨_, rfl, hf.elfHeader s₁ q'.state _ hst₁⟩
      exact Pair.branch Iff.rfl ((hheader.warn hf _).setAction _)
        (Pair.branch Iff.rfl (hcalled.setAction _)
          (Pair.branch Iff.rfl ((hcalled.warn hf _).setAction _) ((hcalled.warn hf _).setAction _)))

/-- Only the last action ends the run. -/
theorem perform_action (r : Reader σ) {a : Action} (ha : a ≠ .done) :
    ∃ b, (a.perform g r).action = some b := by
  cases a with
  | done => exact absurd rfl ha
  | prepareSegmentHeaders =>
      simp only [Action.perform, prvActionPrepareSegmentHeaders]
      split
      · exact ⟨_, rfl⟩
      · exact ⟨_, rfl⟩
  | skipToSegmentHeaders =>
      simp only [Action.perform, prvActionSkipToSegmentHeaders]
      split
      · exact ⟨_, rfl⟩
      · exact ⟨_, rfl⟩
  | readSegmentHeaders => exact ⟨_, rfl⟩
  | readElfHeader =>
      simp only [Action.perform, prvActionReadElfHeader]
      split
      · exact ⟨_, rfl⟩
      · split
        · exact ⟨_, rfl⟩
        · split
          · exact ⟨_, rfl⟩
          · split
            · exact ⟨_, rfl⟩
            · exact ⟨_, rfl⟩

/-- The loop over the actions comes to the last one. -/
theorem Pair.actionLoop (hf : Follows P Q h g) {fuel : Nat} {r : Reader τ} {r' : Reader σ}
    (hp : Pair P r r') {a : Action} (ha : r'.action = some a)
    (hfuel : Action.rank r'.action ≤ fuel) :
    Pair Q (actionLoop h fuel r) (actionLoop g fuel r') := by
  induction fuel generalizing r r' a with
  | zero =>
      rw [ha] at hfuel
      cases a <;> exact absurd hfuel (by decide)
  | succ fuel ih =>
      have ha' : r.action = some a := by
        obtain ⟨s, rfl, -⟩ := hp
        exact ha
      simp only [CoreElfReader.actionLoop, ha, ha']
      by_cases hdone : a = .done
      · subst hdone
        obtain ⟨s, rfl, hst⟩ := hp
        -- after the last action there is none, however many rounds are left
        have hend : ∀ {υ : Type} (k : Handler υ) (q : Reader υ),
            CoreElfReader.actionLoop k fuel (prvActionDone k q) = prvActionDone k q := by
          intro υ k q
          cases fuel with
          | zero => rfl
          | succ fuel => rfl
        simp only [Action.perform, hend]
        exact ⟨_, rfl, hf.done s r'.state hst⟩
      · obtain ⟨b, hb⟩ := perform_action (g := g) r' hdone
        refine ih (hp.perform hf hdone) hb ?_
        have := perform_rank g r' a
        rw [ha] at hfuel
        omega

/-- **The reader does not look into the state of its handler.** -/
theorem follows_readAll (hf : Follows P Q h g) (io : ReadIo) (malloc : Nat → Bool) {s : τ} {t : σ}
    (hst : P s t) :
    Q (ticosCoreElfReaderReadAll h (ticosCoreElfReaderInit io malloc s)).2.state
      (ticosCoreElfReaderReadAll g (ticosCoreElfReaderInit io malloc t)).2.state := by
  have hp : Pair P (Reader.carry { ticosCoreElfReaderInit io malloc t with
      action := some .readElfHeader } s)
      { ticosCoreElfReaderInit io malloc t with action := some .readElfHeader } := ⟨s, rfl, hst⟩
  obtain ⟨s', heq, hq⟩ := hp.actionLoop hf rfl (Nat.le_refl 5)
  have hstate : _ = s' := congrArg Reader.state heq
  have hgoal : Q (CoreElfReader.actionLoop h 5 (Reader.carry { ticosCoreElfReaderInit io malloc t
      with action := some .readElfHeader } s)).state
      (CoreElfReader.actionLoop g 5 { ticosCoreElfReaderInit io malloc t
        with action := some .readElfHeader }).state := by
    rw [hstate]
    exact hq
  exact hgoal

end CoreElfReader
