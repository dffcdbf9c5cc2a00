import Ticosd.CText

/-! # Device settings — `device_settings.c`

    `ticos-device-info` prints lines `NAME=value`.  `fgets` cuts the text into pieces of at
    most 1023 bytes; from each piece one `strtok` takes the name, up to `=`, and a second one
    the value, up to the end of the line.

    `strtok` does not split: it skips separators in front of a token, and has no token where
    only separators are left.  So `=` in front of a line goes unnoticed, and a piece of
    nothing but `=` has no name: NULL goes to `strcmp`.  `settings_iff` says that these are
    the only two ways in which the parser leaves the grammar of the lines. -/

namespace DeviceSettings

open CText

/-- The separators. -/
def newline : UInt8 := 10
def equals : UInt8 := 61

/-- `struct TicosdDeviceSettings`; `none` is a NULL field. -/
structure TicosdDeviceSettings where
  deviceId : Option (List UInt8)
  hardwareVersion : Option (List UInt8)
  deriving DecidableEq

/-- `fgets` with room for `n` bytes: what it reads, and what is left to read. -/
def fgets : Nat → List UInt8 → List UInt8 × List UInt8
  | 0, text => ([], text)
  | _ + 1, [] => ([], [])
  | n + 1, b :: text =>
      if b = newline then ([b], text) else (b :: (fgets n text).1, (fgets n text).2)

/-- The pieces that the calls of `fgets` return; each has a byte at least. -/
def pieces : Nat → List UInt8 → List (List UInt8)
  | 0, _ => []
  | _ + 1, [] => []
  | fuel + 1, b :: text => (fgets 1023 (b :: text)).1 :: pieces fuel (fgets 1023 (b :: text)).2

/-- `strtok`: the token, if there is one, and what the next call goes on with. -/
def strtok (delim str : List UInt8) : Option (List UInt8) × List UInt8 :=
  let str := str.dropWhile (· ∈ delim)
  if str = [] then (none, [])
  else (some (str.takeWhile (· ∉ delim)), (str.dropWhile (· ∉ delim)).drop 1)

/-- One round of `ticosd_device_settings_init`; `none` is a NULL passed to `strcmp`. -/
def readLine (handle : TicosdDeviceSettings) (line : List UInt8) : Option TicosdDeviceSettings :=
  let first := strtok (ascii "=") (cString line)
  let val := (strtok (ascii "\n") first.2).1.getD []
  match first.1 with
  | none => none
  | some name =>
      if name = ascii "TICOS_DEVICE_ID" then
        if val = [] then some handle else some { handle with deviceId := some val }
      else if name = ascii "TICOS_HARDWARE_VERSION" then
        if val = [] then some handle else some { handle with hardwareVersion := some val }
      else some handle

/-- Its loop. -/
def readLines (handle : TicosdDeviceSettings) : List (List UInt8) → Option TicosdDeviceSettings
  | [] => some handle
  | line :: rest =>
      match readLine handle line with
      | none => none
      | some handle => readLines handle rest

/-- `ticosd_device_settings_init` on what `ticos-device-info` prints: the two settings if it
    succeeds; `none` if a NULL has been passed to `strcmp`. -/
def ticosdDeviceSettingsInit (text : List UInt8) :
    Option (Option (List UInt8 × List UInt8)) :=
  match readLines ⟨none, none⟩ (pieces text.length text) with
  | none => none
  | some handle =>
      match handle.deviceId, handle.hardwareVersion with
      | some deviceId, some hardwareVersion => some (some (deviceId, hardwareVersion))
      | _, _ => some none

/-! ## The grammar of the lines -/

/-- The lines of a text. -/
def lines (text : List UInt8) : List (List UInt8) := text.splitOn newline

/-- The value that a line sets `name` to: what follows `name=` up to the newline, if that is
    not empty. -/
def setting (name line : List UInt8) : Option (List UInt8) :=
  if name ++ [equals] <+: line then
    let val := (line.drop (name.length + 1)).takeWhile (· ≠ newline)
    if val = [] then none else some val
  else none

/-- The last line that sets `name` wins. -/
def lastSetting (name : List UInt8) (text : List UInt8) : Option (List UInt8) :=
  ((lines text).filterMap (setting name)).getLast?

def deviceIdName : List UInt8 := ascii "TICOS_DEVICE_ID"
def hardwareVersionName : List UInt8 := ascii "TICOS_HARDWARE_VERSION"

/-- The settings of a text: both, or none. -/
def settingsOf (text : List UInt8) : Option (List UInt8 × List UInt8) :=
  Option.map₂ Prod.mk (lastSetting deviceIdName text) (lastSetting hardwareVersionName text)

/-- The line sets neither. -/
def Other (line : List UInt8) : Prop :=
  setting deviceIdName line = none ∧ setting hardwareVersionName line = none

instance (line : List UInt8) : Decidable (Other line) := inferInstanceAs (Decidable (_ ∧ _))

/-- No line is too long for the buffer. -/
def ShortLines (text : List UInt8) : Prop := ∀ line ∈ lines text, line.length < 1023

instance (text : List UInt8) : Decidable (ShortLines text) :=
  inferInstanceAs (Decidable (∀ line ∈ lines text, line.length < 1023))

/-- The parser reads the text as its grammar says: no NULL goes to `strcmp`; and where no
    line is too long it returns the settings, and the other lines change nothing. -/
def ReadsAsLines (text : List UInt8) : Prop :=
  ticosdDeviceSettingsInit text ≠ none ∧
    (ShortLines text → ticosdDeviceSettingsInit text = some (settingsOf text) ∧
      ∀ line ∈ pieces text.length text, Other line → ∀ handle, readLine handle line = some handle)

/-- A line without the separators in front. -/
def strip (line : List UInt8) : List UInt8 := line.dropWhile (· = equals)

/-- No piece consists of `=` only; and where no line is too long, none is a setting behind
    one `=` or more. -/
def WellSeparated (text : List UInt8) : Prop :=
  (∀ line ∈ pieces text.length text, ∃ b ∈ line, b ≠ equals) ∧
    (ShortLines text → ∀ line ∈ pieces text.length text, line.head? = some equals →
      Other (strip line))

instance (text : List UInt8) : Decidable (WellSeparated text) :=
  inferInstanceAs (Decidable (_ ∧ (_ → _)))

/-! ## Pieces -/

/-- Nothing is lost, and a newline ends a piece. -/
theorem fgets_spec (n : Nat) (text : List UInt8) :
    (fgets n text).1 ++ (fgets n text).2 = text ∧ newline ∉ (fgets n text).1.dropLast := by
  induction n generalizing text with
  | zero => exact ⟨rfl, List.not_mem_nil⟩
  | succ n ih =>
      cases text with
      | nil => exact ⟨rfl, List.not_mem_nil⟩
      | cons b text =>
          rw [fgets]
          by_cases hb : b = newline
          · rw [if_pos hb]
            exact ⟨rfl, List.not_mem_nil⟩
          · rw [if_neg hb]
            obtain ⟨hjoin, hlast⟩ := ih text
            refine ⟨congrArg (b :: ·) hjoin, ?_⟩
            intro hmem
            cases hpiece : (fgets n text).1 with
            | nil =>
                rw [hpiece] at hmem
                exact nomatch hmem
            | cons c rest =>
                rw [hpiece] at hmem hlast
                rcases List.mem_cons.mp hmem with heq | hrest
                · exact hb heq.symm
                · exact hlast hrest

theorem fgets_cons (b : UInt8) (text : List UInt8) : ∃ rest,
    (fgets 1023 (b :: text)).1 = b :: rest := by
  rw [fgets]
  by_cases hb : b = newline
  · rw [if_pos hb]
    exact ⟨[], rfl⟩
  · rw [if_neg hb]
    exact ⟨_, rfl⟩

theorem fgets_rest (b : UInt8) (text : List UInt8) :
    (fgets 1023 (b :: text)).2.length ≤ text.length := by
  have hjoin := congrArg List.length (fgets_spec 1023 (b :: text)).1
  obtain ⟨rest, hpiece⟩ := fgets_cons b text
  rw [hpiece, List.length_append, List.length_cons, List.length_cons] at hjoin
  omega

/-- The pieces are the text. -/
theorem pieces_flatten {fuel : Nat} {text : List UInt8} (h : text.length ≤ fuel) :
    (pieces fuel text).flatten = text := by
  induction fuel generalizing text with
  | zero => exact (List.eq_nil_of_length_eq_zero (Nat.le_zero.mp h)).symm
  | succ fuel ih =>
      cases text with
      | nil => rfl
      | cons b text =>
          have hrest := fgets_rest b text
          rw [List.length_cons] at h
          rw [pieces, List.flatten_cons, ih (by omega)]
          exact (fgets_spec 1023 (b :: text)).1

theorem pieces_newline {fuel : Nat} {text line : List UInt8} (h : line ∈ pieces fuel text) :
    newline ∉ line.dropLast := by
  induction fuel generalizing text with
  | zero => exact nomatch h
  | succ fuel ih =>
      cases text with
      | nil => exact nomatch h
      | cons b text =>
          rcases List.mem_cons.mp h with rfl | hrest
          · exact (fgets_spec 1023 (b :: text)).2
          · exact ih hrest

/-- A piece of a text without NUL. -/
theorem pieces_no_nul {text line : List UInt8} (h0 : 0 ∉ text)
    (h : line ∈ pieces text.length text) : 0 ∉ line := by
  intro hmem
  rw [← pieces_flatten (Nat.le_refl text.length)] at h0
  exact h0 (List.mem_flatten.mpr ⟨line, h, hmem⟩)

/-! ## One line -/

theorem strtok_equals (str : List UInt8) : strtok (ascii "=") str
    = if strip str = [] then (none, [])
      else (some ((strip str).takeWhile (· ≠ equals)),
        ((strip str).dropWhile (· ≠ equals)).drop 1) := by
  have hmem : ∀ b, b ∈ ascii "=" ↔ b = equals := fun _ => List.mem_singleton
  simp only [strtok, hmem, strip]
  rfl

/-- The second `strtok`, in a piece: the text up to the newline, if there is any. -/
theorem strtok_newline {str : List UInt8} (h : newline ∉ str.dropLast) :
    (strtok (ascii "\n") str).1.getD [] = str.takeWhile (· ≠ newline) := by
  have hmem : ∀ b, b ∈ ascii "\n" ↔ b = newline := fun _ => List.mem_singleton
  cases str with
  | nil => rfl
  | cons b rest =>
      simp only [strtok, hmem]
      by_cases hb : b = newline
      · -- a newline stands only at the end of a piece
        have hrest : rest = [] := by
          cases rest with
          | nil => rfl
          | cons c rest => exact absurd (List.mem_cons.mpr (Or.inl hb.symm)) h
        subst hb hrest
        rfl
      · simp [hb]

theorem not_mem_dropLast_suffix {line str : List UInt8} (hsuffix : str <:+ line)
    (h : newline ∉ line.dropLast) : newline ∉ str.dropLast := by
  obtain ⟨front, rfl⟩ := hsuffix
  intro hmem
  have hne : str ≠ [] := by
    rintro rfl
    exact nomatch hmem
  rw [List.dropLast_append_of_ne_nil hne] at h
  exact h (List.mem_append_right front hmem)

/-- A setting as the two tokens show it. -/
theorem setting_tokens {name : List UInt8} (hname : equals ∉ name) (str : List UInt8) :
    setting name str
      = if str.takeWhile (· ≠ equals) = name then
          if ((str.dropWhile (· ≠ equals)).drop 1).takeWhile (· ≠ newline) = [] then none
          else some (((str.dropWhile (· ≠ equals)).drop 1).takeWhile (· ≠ newline))
        else none := by
  have hall : ∀ b ∈ name, decide (b ≠ equals) = true := by
    intro b hb
    simp only [decide_eq_true_eq]
    rintro rfl
    exact hname hb
  rw [setting]
  by_cases hbegins : name ++ [equals] <+: str
  · obtain ⟨rest, rfl⟩ := hbegins
    have hsplit : name ++ [equals] ++ rest = name ++ (equals :: rest) := by
      rw [List.append_assoc]
      rfl
    have htoken : (name ++ (equals :: rest)).takeWhile (· ≠ equals) = name := by
      rw [List.takeWhile_append_of_pos hall]
      simp
    have hrest : ((name ++ (equals :: rest)).dropWhile (· ≠ equals)).drop 1 = rest := by
      rw [List.dropWhile_append_of_pos hall]
      simp
    have hdrop : (name ++ (equals :: rest)).drop (name.length + 1) = rest := by
      rw [← List.drop_drop, List.drop_left]
      rfl
    rw [if_pos (List.prefix_append _ _), hsplit, if_pos htoken, hrest, hdrop]
  · rw [if_neg hbegins]
    by_cases htoken : str.takeWhile (· ≠ equals) = name
    · -- the name is all there is
      have hend : str.dropWhile (· ≠ equals) = [] := by
        cases hd : str.dropWhile (· ≠ equals) with
        | nil => rfl
        | cons b rest =>
            have hb : b = equals := by
              have hhead := List.head_dropWhile_not (fun b => decide (b ≠ equals))
                (show str.dropWhile (· ≠ equals) ≠ [] by rw [hd]; exact List.cons_ne_nil _ _)
              simp only [hd, List.head_cons, decide_eq_false_iff_not, not_not] at hhead
              exact hhead
            refine absurd ⟨rest, ?_⟩ hbegins
            rw [← List.takeWhile_append_dropWhile (p := fun b => decide (b ≠ equals)) (l := str),
              htoken, hd, hb, List.append_assoc]
            rfl
      rw [if_pos htoken, hend]
      rfl
    · rw [if_neg htoken]

/-- What a line without separators in front sets. -/
def apply (handle : TicosdDeviceSettings) (line : List UInt8) : TicosdDeviceSettings where
  deviceId := (setting deviceIdName line).or handle.deviceId
  hardwareVersion := (setting hardwareVersionName line).or handle.hardwareVersion

/-- **One round**: no name in a piece of separators; else the grammar's settings of the line,
    but of the line without the separators in front. -/
theorem readLine_eq {line : List UInt8} (h0 : 0 ∉ line) (hline : newline ∉ line.dropLast)
    (handle : TicosdDeviceSettings) : readLine handle line
      = if strip line = [] then none else some (apply handle (strip line)) := by
  rw [readLine, cString_eq h0, strtok_equals]
  by_cases hempty : strip line = []
  · rw [if_pos hempty, if_pos hempty]
  · have hsuffix : ((strip line).dropWhile (· ≠ equals)).drop 1 <:+ line :=
      (List.drop_suffix _ _).trans ((List.dropWhile_suffix _).trans (List.dropWhile_suffix _))
    rw [if_neg hempty, if_neg hempty]
    dsimp only
    rw [strtok_newline (not_mem_dropLast_suffix hsuffix hline), apply,
      setting_tokens (show equals ∉ deviceIdName by decide),
      setting_tokens (show equals ∉ hardwareVersionName by decide)]
    generalize (((strip line).dropWhile (· ≠ equals)).drop 1).takeWhile (· ≠ newline) = val
    generalize (strip line).takeWhile (· ≠ equals) = token
    by_cases hid : token = deviceIdName
    · have hhw : token ≠ hardwareVersionName := by
        rw [hid]
        decide
      rw [if_pos hid, if_neg hhw]
      refine (if_pos hid).trans ?_
      by_cases hval : val = []
      · rw [if_pos hval, if_pos hval]
        rfl
      · rw [if_neg hval, if_neg hval]
        rfl
    · rw [if_neg hid]
      refine (if_neg hid).trans ?_
      by_cases hhw : token = hardwareVersionName
      · rw [if_pos hhw]
        refine (if_pos hhw).trans ?_
        by_cases hval : val = []
        · rw [if_pos hval, if_pos hval]
          rfl
        · rw [if_neg hval, if_neg hval]
          rfl
      · rw [if_neg hhw]
        exact if_neg hhw

/-! ## Lines and pieces -/

theorem setting_nil (name : List UInt8) : setting name [] = none := by
  refine if_neg ?_
  intro h
  exact List.append_ne_nil_of_right_ne_nil name (List.cons_ne_nil _ _) (List.prefix_nil.mp h)

/-- The newline at the end is no part of a setting. -/
theorem setting_newline {name line : List UInt8} (hline : newline ∉ line) :
    setting name (line ++ [newline]) = setting name line := by
  have hbegins : name ++ [equals] <+: line ++ [newline] ↔ name ++ [equals] <+: line := by
    rw [List.prefix_concat_iff, or_iff_right]
    intro heq
    exact absurd (List.append_inj_right' heq rfl) (by decide)
  rw [setting, setting]
  by_cases h : name ++ [equals] <+: line
  · have hlen := h.length_le
    rw [List.length_append, List.length_singleton] at hlen
    have hall : ∀ b ∈ line.drop (name.length + 1), decide (b ≠ newline) = true := by
      intro b hb
      simp only [decide_eq_true_eq]
      rintro rfl
      exact hline (List.mem_of_mem_drop hb)
    have hval : ((line ++ [newline]).drop (name.length + 1)).takeWhile (· ≠ newline)
        = (line.drop (name.length + 1)).takeWhile (· ≠ newline) := by
      rw [List.drop_append_of_le_length hlen, List.takeWhile_append_of_pos hall,
        List.takeWhile_eq_self_iff.mpr hall]
      exact List.append_nil _
    rw [if_pos (hbegins.mpr h), if_pos h, hval]
  · rw [if_neg (fun h' => h (hbegins.mp h')), if_neg h]

theorem fgets_line {n : Nat} {line : List UInt8} (rest : List UInt8) (hline : newline ∉ line)
    (hlen : line.length < n) :
    fgets n (line ++ newline :: rest) = (line ++ [newline], rest) := by
  induction line generalizing n with
  | nil =>
      obtain ⟨n, rfl⟩ := Nat.exists_eq_add_of_lt hlen
      rfl
  | cons b line ih =>
      rw [List.mem_cons, not_or] at hline
      obtain ⟨n, rfl⟩ : ∃ k, n = k + 1 := ⟨n - 1, by omega⟩
      rw [List.cons_append, fgets, if_neg (Ne.symm hline.1),
        ih hline.2 (Nat.lt_of_succ_lt_succ hlen)]
      rfl

theorem fgets_last {n : Nat} {line : List UInt8} (hline : newline ∉ line)
    (hlen : line.length < n) : fgets n line = (line, []) := by
  induction line generalizing n with
  | nil => cases n <;> rfl
  | cons b line ih =>
      rw [List.mem_cons, not_or] at hline
      obtain ⟨n, rfl⟩ : ∃ k, n = k + 1 := ⟨n - 1, by omega⟩
      rw [fgets, if_neg (Ne.symm hline.1), ih hline.2 (Nat.lt_of_succ_lt_succ hlen)]

theorem lines_cons {line : List UInt8} (rest : List UInt8) (hline : newline ∉ line) :
    lines (line ++ newline :: rest) = line :: lines rest := by
  rw [lines, lines, List.splitOn_eq_splitOnP, List.splitOn_eq_splitOnP]
  have hall : ∀ b ∈ line, (b == newline) = false := by
    intro b hb
    rw [beq_eq_false_iff_ne]
    rintro rfl
    exact hline hb
  exact List.splitOnP_append_cons_of_forall_mem hall newline (beq_self_eq_true newline) rest

theorem lines_last {line : List UInt8} (hline : newline ∉ line) : lines line = [line] := by
  refine List.splitOn_eq_singleton_of_beq_eq_false ?_
  intro b hb
  rw [beq_eq_false_iff_ne]
  rintro rfl
  exact hline hb

theorem pieces_succ (fuel : Nat) {text : List UInt8} (h : text ≠ []) :
    pieces (fuel + 1) text = (fgets 1023 text).1 :: pieces fuel (fgets 1023 text).2 := by
  cases text with
  | nil => exact absurd rfl h
  | cons b text => rfl

theorem pieces_nil (fuel : Nat) : pieces fuel [] = [] := by
  cases fuel <;> rfl

/-- **Short lines are read one by one**: line by line, the pieces set what the lines do. -/
theorem filterMap_pieces (name : List UInt8) {fuel : Nat} {text : List UInt8}
    (hfuel : text.length ≤ fuel) (hshort : ShortLines text) :
    (pieces fuel text).filterMap (setting name) = (lines text).filterMap (setting name) := by
  have hempty : (lines []).filterMap (setting name) = [] := by
    rw [lines_last List.not_mem_nil, List.filterMap_cons, setting_nil]
    rfl
  induction fuel generalizing text with
  | zero =>
      rw [List.eq_nil_of_length_eq_zero (Nat.le_zero.mp hfuel), hempty]
      rfl
  | succ fuel ih =>
      by_cases hmem : newline ∈ text
      · obtain ⟨line, rest, rfl, hline⟩ := List.eq_append_cons_of_mem hmem
        rw [ShortLines, lines_cons rest hline, List.forall_mem_cons] at hshort
        rw [List.length_append, List.length_cons] at hfuel
        rw [pieces_succ fuel (List.append_ne_nil_of_right_ne_nil _ (List.cons_ne_nil _ _)),
          fgets_line rest hline hshort.1, lines_cons rest hline, List.filterMap_cons,
          List.filterMap_cons, setting_newline hline, ih (by omega) hshort.2]
      · rw [ShortLines, lines_last hmem, List.forall_mem_singleton] at hshort
        by_cases hnil : text = []
        · rw [hnil, hempty]
          rfl
        · rw [pieces_succ fuel hnil, fgets_last hmem hshort, pieces_nil, lines_last hmem]

/-! ## Whole texts -/

theorem strip_of_head {line : List UInt8} (h : line.head? ≠ some equals) : strip line = line := by
  cases line with
  | nil => rfl
  | cons b line =>
      have hb : b ≠ equals := fun heq => h (congrArg some heq)
      exact List.dropWhile_cons_of_neg (by simpa using hb)

/-- No name begins with `=`. -/
theorem other_of_head {line : List UInt8} (h : line.head? = some equals) : Other line := by
  have hnone : ∀ name : List UInt8, name.head? ≠ some equals → name ≠ [] →
      setting name line = none := by
    intro name hhead hne
    refine if_neg ?_
    rintro ⟨rest, rfl⟩
    rw [List.append_assoc, List.head?_append_of_ne_nil name hne] at h
    exact hhead h
  exact ⟨hnone _ (by decide) (by decide), hnone _ (by decide) (by decide)⟩

theorem strip_eq_nil_iff (line : List UInt8) : strip line = [] ↔ ¬ ∃ b ∈ line, b ≠ equals := by
  rw [strip, List.dropWhile_eq_nil_iff]
  simp only [decide_eq_true_eq, not_exists, not_and, not_not]

/-- Pieces of a text without NUL. -/
def Pieces (ls : List (List UInt8)) : Prop := ∀ line ∈ ls, 0 ∉ line ∧ newline ∉ line.dropLast

/-- A NULL goes to `strcmp` exactly at a piece without a name. -/
theorem readLines_none_iff {ls : List (List UInt8)} (h : Pieces ls)
    (handle : TicosdDeviceSettings) :
    readLines handle ls = none ↔ ∃ line ∈ ls, strip line = [] := by
  induction ls generalizing handle with
  | nil => exact iff_of_false nofun (by rintro ⟨line, hline, -⟩; exact nomatch hline)
  | cons line rest ih =>
      obtain ⟨h0, hline⟩ := h line List.mem_cons_self
      rw [readLines, readLine_eq h0 hline]
      by_cases hstrip : strip line = []
      · rw [if_pos hstrip]
        exact iff_of_true rfl ⟨line, List.mem_cons_self, hstrip⟩
      · rw [if_neg hstrip]
        refine (ih (fun l hl => h l (List.mem_cons_of_mem line hl)) _).trans ?_
        simp only [List.mem_cons, exists_eq_or_imp, hstrip, false_or]

/-- The last setting of a row, if it goes over what there was before. -/
theorem getLast_filterMap_cons (f : List UInt8 → Option (List UInt8)) (line : List UInt8)
    (rest : List (List UInt8)) (before : Option (List UInt8)) :
    ((line :: rest).filterMap f).getLast?.or before
      = (rest.filterMap f).getLast?.or ((f line).or before) := by
  cases hf : f line with
  | none => rw [List.filterMap_cons_none hf, Option.none_or]
  | some val =>
      rw [List.filterMap_cons_some hf, List.getLast?_cons]
      cases (rest.filterMap f).getLast? with
      | none => rfl
      | some last => rfl

/-- **A run**: where each round sets what the line sets, the last setting of each name
    stands at the end. -/
theorem readLines_eq {ls : List (List UInt8)} {handle : TicosdDeviceSettings}
    (h : ∀ line ∈ ls, ∀ handle, readLine handle line = some (apply handle line)) :
    readLines handle ls = some
      ⟨(ls.filterMap (setting deviceIdName)).getLast?.or handle.deviceId,
        (ls.filterMap (setting hardwareVersionName)).getLast?.or handle.hardwareVersion⟩ := by
  induction ls generalizing handle with
  | nil => rfl
  | cons line rest ih =>
      rw [readLines, h line List.mem_cons_self, getLast_filterMap_cons, getLast_filterMap_cons]
      exact ih fun l hl => h l (List.mem_cons_of_mem line hl)

theorem apply_other {line : List UInt8} (h : Other line) (handle : TicosdDeviceSettings) :
    apply handle line = handle := by
  rw [apply, h.1, h.2]
  rfl

/-- A line that sets nothing, as seen by an empty handle. -/
theorem other_of_apply {line : List UInt8} (h : apply ⟨none, none⟩ line = ⟨none, none⟩) :
    Other line := by
  rw [apply, TicosdDeviceSettings.mk.injEq, Option.or_none, Option.or_none] at h
  exact h

theorem pieces_pieces {text : List UInt8} (h0 : 0 ∉ text) :
    Pieces (pieces text.length text) :=
  fun _ hline => ⟨pieces_no_nul h0 hline, pieces_newline hline⟩

theorem init_none_iff {text : List UInt8} (h0 : 0 ∉ text) :
    ticosdDeviceSettingsInit text = none ↔ ∃ line ∈ pieces text.length text, strip line = [] := by
  rw [← readLines_none_iff (pieces_pieces h0) ⟨none, none⟩, ticosdDeviceSettingsInit]
  cases readLines ⟨none, none⟩ (pieces text.length text) with
  | none => exact iff_of_true rfl rfl
  | some handle =>
      obtain ⟨_ | deviceId, _ | hardwareVersion⟩ := handle
      all_goals exact iff_of_false nofun nofun

/-- The result, if each round sets what the line sets. -/
theorem init_eq {text : List UInt8} (hshort : ShortLines text)
    (h : ∀ line ∈ pieces text.length text, ∀ handle, readLine handle line = some (apply handle line)) :
    ticosdDeviceSettingsInit text = some (settingsOf text) := by
  rw [ticosdDeviceSettingsInit, readLines_eq h, settingsOf, lastSetting, lastSetting,
    filterMap_pieces _ (Nat.le_refl _) hshort, filterMap_pieces _ (Nat.le_refl _) hshort,
    Option.or_none, Option.or_none]
  dsimp only
  cases ((lines text).filterMap (setting deviceIdName)).getLast? with
  | none => rfl
  | some deviceId =>
      cases ((lines text).filterMap (setting hardwareVersionName)).getLast? with
      | none => rfl
      | some hardwareVersion => rfl

/-- **The parser reads a text as its lines exactly when the text is well separated.** -/
theorem settings_iff {text : List UInt8} (h0 : 0 ∉ text) :
    ReadsAsLines text ↔ WellSeparated text := by
  have hnull : ticosdDeviceSettingsInit text ≠ none ↔
      ∀ line ∈ pieces text.length text, ∃ b ∈ line, b ≠ equals := by
    rw [Ne, init_none_iff h0]
    simp only [strip_eq_nil_iff, not_exists, not_and, not_forall, not_not, exists_prop, ne_eq]
  have hpieces := pieces_pieces h0
  have hround : (∀ line ∈ pieces text.length text, ∃ b ∈ line, b ≠ equals) →
      ∀ line ∈ pieces text.length text, ∀ handle,
        readLine handle line = some (apply handle (strip line)) := by
    intro hnames line hline handle
    have hne : strip line ≠ [] := fun heq => (strip_eq_nil_iff line).mp heq (hnames line hline)
    obtain ⟨hnul, hend⟩ := hpieces line hline
    rw [readLine_eq hnul hend, if_neg hne]
  rw [ReadsAsLines, WellSeparated, hnull]
  refine and_congr_right fun hnames => forall_congr' fun hshort => ?_
  constructor
  · rintro ⟨-, hother⟩ line hline hhead
    -- the line sets nothing, so neither does what the code reads of it
    have hsame := hother line hline (other_of_head hhead) ⟨none, none⟩
    rw [hround hnames line hline] at hsame
    exact other_of_apply (Option.some.inj hsame)
  · intro hseparated
    have hlines : ∀ line ∈ pieces text.length text, ∀ handle,
        readLine handle line = some (apply handle line) := by
      intro line hline handle
      rw [hround hnames line hline]
      by_cases hhead : line.head? = some equals
      · rw [apply_other (hseparated line hline hhead), apply_other (other_of_head hhead)]
      · rw [strip_of_head hhead]
    refine ⟨init_eq hshort hlines, fun line hline hother handle => ?_⟩
    rw [hlines line hline, apply_other hother]

theorem settings_iff_two :
    ReadsAsLines (ascii "x=\nTICOS_DEVICE_ID=a\nTICOS_HARDWARE_VERSION=b=c") :=
  (settings_iff (by decide +kernel)).mpr (by decide +kernel)

/-- A text of one `=` hands a NULL to `strcmp`; and a line that is no setting for the `=` in
    front of it is taken for one. -/
theorem separators_in_front :
    ¬ ReadsAsLines (ascii "=") ∧
      ¬ ReadsAsLines (ascii "=TICOS_DEVICE_ID=a\nTICOS_HARDWARE_VERSION=b\n") := by
  constructor
  · intro h
    exact h.1 (by decide +kernel)
  · intro h
    have hresult := (h.2 (by decide +kernel)).1
    exact absurd hresult (by decide +kernel)

end DeviceSettings
