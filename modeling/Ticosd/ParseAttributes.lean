import Ticosd.Attributes
import Ticosd.Decimal

/-! # Attribute arguments — `parse_attributes.c`

    Each argument is a key, `=` and a value.  A value that is JSON is meant as such, if it is
    a boolean, a number or a string; any other value is a string.  The loop fails as a whole
    on the first argument that has no key or no `=`.

    The values go through `json_tokener_parse`, which parses what the text begins with and
    ignores the rest.  So "is JSON" comes out as "begins with JSON", and a version number
    such as `1.2.3` loses its end; `attributes_kept_iff` says when that does not happen. -/

namespace ParseAttributes

open CText Attributes

/-! ## json-c -/

/-- A `json_object` that is not NULL; a double is its bit pattern. -/
inductive Value where
  | boolean (b : Bool)
  | int (i : Int)
  | double (bits : UInt64)
  | string (s : List UInt8)
  | array (items : List Value)
  | object (fields : List (List UInt8 × Value))

/-- `json_object_get_type`, as far as it is looked at. -/
def typeOf : Value → JsonType
  | .array _ => .array
  | .object _ => .object
  | _ => .other

/-- A boolean, a number or a string. -/
def Scalar (v : Value) : Prop := typeOf v = .other

/-- White space of JSON. -/
def isWhite (b : UInt8) : Bool := b = 32 ∨ b = 9 ∨ b = 10 ∨ b = 13

def White (text : List UInt8) : Prop := ∀ b ∈ text, isWhite b = true

/-- `json_tokener_parse`, which is not strict, and what is relied on of it: it parses one
    value at the start of its input and ignores whatever follows. -/
structure Tokener where
  parse : List UInt8 → Option Value
  /-- How much of the input has been parsed, `json_tokener_get_parse_end`. -/
  parseEnd : List UInt8 → Nat
  /-- The JSON texts of a value, without white space around them. -/
  Text : List UInt8 → Value → Prop
  starts : ∀ {text v}, parse text = some v →
    ∃ lead body, text.take (parseEnd text) = lead ++ body ∧ White lead ∧ Text body v
  whole : ∀ {lead body trail v}, Scalar v → White lead → Text body v → White trail →
    parse (lead ++ body ++ trail) = some v ∧
      White ((lead ++ body ++ trail).drop (parseEnd (lead ++ body ++ trail)))
  /-- The text of a string has quotes. -/
  quoted : ∀ {body s}, Text body (.string s) → s.length < body.length

/-- json-c, with `json_object_to_json_string` as `print`. -/
def jsonC (tk : Tokener) (print : Value → List UInt8) : JsonC Value where
  tokenerParse := tk.parse
  getType := typeOf
  newString := .string
  newObject := .object
  newArray := .array
  toJsonString := print

/-- The text is a JSON text of the value, up to white space around it. -/
def Tokener.Whole (tk : Tokener) (text : List UInt8) (v : Value) : Prop :=
  ∃ lead body trail, text = lead ++ body ++ trail ∧ White lead ∧ White trail ∧ tk.Text body v

/-- Where the tokener finds a boolean, a number or a string, it leaves nothing but white
    space behind. -/
def Tokener.ReadsAll (tk : Tokener) (text : List UInt8) : Prop :=
  ∀ v, tk.parse text = some v → Scalar v → White (text.drop (tk.parseEnd text))

/-! ## The loop -/

section Loop

variable {J : Type} (jc : JsonC J)

/-- The loop of `ticosd_parse_attributes`: `parse_error`, and the elements so far. -/
def attributesLoop (json : List J) : List (List UInt8) → Bool × List J
  | [] => (false, json)
  | arg :: rest =>
      match parseAttribute jc arg with
      | none => (true, json)
      | some pair => attributesLoop (json ++ [pair]) rest

/-- `ticosd_parse_attributes`: the return value, and `*ret_json`. -/
def parseAttributes (argv : List (List UInt8)) : Bool × Option J :=
  let t := attributesLoop jc [] argv
  if t.1 = true ∨ t.2.length < 1 then (false, none) else (true, some (jc.newArray t.2))

/-- The loop adds an element for each argument, or fails. -/
theorem attributesLoop_eq (json : List J) (argv : List (List UInt8)) :
    match argv.mapM (parseAttribute jc) with
    | none => (attributesLoop jc json argv).1 = true
    | some items => attributesLoop jc json argv = (false, json ++ items) := by
  induction argv generalizing json with
  | nil => exact congrArg (false, ·) (List.append_nil json).symm
  | cons arg rest ih =>
      rw [List.mapM_cons, attributesLoop]
      cases parseAttribute jc arg with
      | none => rfl
      | some pair =>
          have hrest := ih (json ++ [pair])
          cases hitems : rest.mapM (parseAttribute jc) with
          | none =>
              rw [hitems] at hrest
              exact hrest
          | some items =>
              rw [hitems] at hrest
              have happend : json ++ [pair] ++ items = json ++ pair :: items := by
                rw [List.append_assoc]
                rfl
              exact Eq.trans hrest (congrArg (false, ·) happend)

/-- The function as `Attributes` has it. -/
theorem parseAttributes_eq (argv : List (List UInt8)) :
    parseAttributes jc argv
      = ((ticosdParseAttributes jc argv).isSome, ticosdParseAttributes jc argv) := by
  have hloop := attributesLoop_eq jc [] argv
  rw [parseAttributes, ticosdParseAttributes]
  cases hitems : argv.mapM (parseAttribute jc) with
  | none =>
      rw [hitems] at hloop
      exact if_pos (Or.inl hloop)
  | some items =>
      rw [hitems] at hloop
      rw [hloop]
      cases items with
      | nil => rfl
      | cons pair items => rfl

end Loop

/-! ## Arguments -/

def equals : UInt8 := 61

/-- There is a key in front of the first `=`. -/
def Accepted (arg : List UInt8) : Prop := equals ∈ arg ∧ arg.head? ≠ some equals

/-- The text before the first `=`, and the one after it. -/
def keyText (arg : List UInt8) : List UInt8 := arg.takeWhile (· ≠ equals)
def valueText (arg : List UInt8) : List UInt8 := (arg.dropWhile (· ≠ equals)).drop 1

theorem keyText_eq_nil_iff {arg : List UInt8} (h : equals ∈ arg) :
    keyText arg = [] ↔ arg.head? = some equals := by
  cases arg with
  | nil => exact nomatch h
  | cons b arg =>
      rw [keyText, List.takeWhile_cons, List.head?_cons, Option.some.injEq]
      by_cases hb : b = equals
      · simp [hb]
      · simp [hb]

theorem dropWhile_eq_nil_iff (arg : List UInt8) :
    arg.dropWhile (· ≠ equals) = [] ↔ equals ∉ arg := by
  rw [List.dropWhile_eq_nil_iff]
  simp only [decide_eq_true_eq]
  exact ⟨fun h hmem => h _ hmem rfl, fun h b hb heq => h (heq ▸ hb)⟩

section Arguments

variable (jc : JsonC Value) (arg : List UInt8)

/-- The element for an argument. -/
def element (v : Value) : Value :=
  .object [(ascii "string_key", .string (keyText arg)), (ascii "value", v)]

theorem parseAttribute_none (h : ¬ Accepted arg) : parseAttribute jc arg = none := by
  refine if_pos ?_
  by_cases hmem : equals ∈ arg
  · have hhead : arg.head? = some equals := by
      by_contra hne
      exact h ⟨hmem, hne⟩
    exact Or.inr ((keyText_eq_nil_iff hmem).mpr hhead)
  · exact Or.inl ((dropWhile_eq_nil_iff arg).mpr hmem)

variable {arg}

theorem parseAttribute_some (tk : Tokener) (print : Value → List UInt8) (h : Accepted arg) :
    parseAttribute (jsonC tk print) arg
      = some (element arg (prvParseAttributeValue (jsonC tk print) (valueText arg))) := by
  refine if_neg ?_
  rintro (hrest | hkey)
  · exact (dropWhile_eq_nil_iff arg).mp hrest h.1
  · exact h.2 ((keyText_eq_nil_iff h.1).mp hkey)

end Arguments

/-! ## The meaning of a value -/

/-- What the text of a value means: the boolean, number or string that all of it is a JSON
    text of; else itself. -/
def Tokener.Means (tk : Tokener) (text : List UInt8) (v : Value) : Prop :=
  (∀ w, tk.Whole text w → Scalar w → v = w) ∧
    ((∀ w, tk.Whole text w → ¬ Scalar w) → v = .string text)

section Values

variable (tk : Tokener) (print : Value → List UInt8) {text : List UInt8} {v : Value}

theorem value_scalar (hparse : tk.parse text = some v) (hscalar : Scalar v) :
    prvParseAttributeValue (jsonC tk print) text = v := by
  have hkind : ¬ (typeOf v = .array ∨ typeOf v = .object) := by
    rw [show typeOf v = .other from hscalar]
    decide
  rw [prvParseAttributeValue, show (jsonC tk print).tokenerParse text = some v from hparse]
  exact if_neg hkind

theorem value_other (h : ∀ v, tk.parse text = some v → ¬ Scalar v) :
    prvParseAttributeValue (jsonC tk print) text = .string text := by
  rw [prvParseAttributeValue]
  cases hparse : (jsonC tk print).tokenerParse text with
  | none => rfl
  | some v =>
      have hkind : typeOf v = .array ∨ typeOf v = .object := by
        have hother := h v hparse
        rw [Scalar] at hother
        cases v with
        | array items => exact Or.inl rfl
        | object fields => exact Or.inr rfl
        | _ => exact absurd rfl hother
      exact if_pos hkind

/-- What has been parsed to the end is a JSON text as a whole. -/
theorem whole_of_parse (hparse : tk.parse text = some v)
    (hend : White (text.drop (tk.parseEnd text))) : tk.Whole text v := by
  obtain ⟨lead, body, htake, hlead, hbody⟩ := tk.starts hparse
  refine ⟨lead, body, _, ?_, hlead, hend, hbody⟩
  rw [← htake]
  exact (List.take_append_drop _ _).symm

/-- **One value keeps its meaning exactly if the tokener leaves nothing behind.** -/
theorem value_means_iff (text : List UInt8) :
    tk.Means text (prvParseAttributeValue (jsonC tk print) text) ↔ tk.ReadsAll text := by
  constructor
  · rintro ⟨hwhole, hother⟩ v hparse hscalar
    rw [value_scalar tk print hparse hscalar] at hwhole hother
    by_cases hall : ∃ w, tk.Whole text w ∧ Scalar w
    · obtain ⟨w, ⟨lead, body, trail, rfl, hlead, htrail, hbody⟩, hw⟩ := hall
      exact (tk.whole hw hlead hbody htrail).2
    · -- the value would be the string of the text, whose JSON text is longer
      have hstring := hother fun w hw hs => hall ⟨w, hw, hs⟩
      obtain ⟨lead, body, htake, -, hbody⟩ := tk.starts hparse
      rw [hstring] at hbody
      have hlen := congrArg List.length htake
      rw [List.length_append, List.length_take] at hlen
      have hlonger := tk.quoted hbody
      omega
  · intro hends
    refine ⟨?_, fun hnone => value_other tk print fun v hparse hscalar => ?_⟩
    · rintro w ⟨lead, body, trail, rfl, hlead, htrail, hbody⟩ hscalar
      exact value_scalar tk print (tk.whole hscalar hlead hbody htrail).1 hscalar
    · exact hnone v (whole_of_parse tk hparse (hends v hparse hscalar)) hscalar

end Values

/-! ## The whole list -/

/-- The result keeps the meaning of the arguments: it is there exactly if there are arguments
    and each of them has a key and a value; then it has an element for each argument, in
    order, with its key and what its value means; else the output is NULL. -/
def KeepsMeaning (tk : Tokener) (argv : List (List UInt8)) (out : Bool × Option Value) : Prop :=
  (out.1 = true ↔ argv ≠ [] ∧ ∀ arg ∈ argv, Accepted arg) ∧
    (out.1 = true → ∃ items, out.2 = some (.array items) ∧ List.Forall₂
      (fun arg item => ∃ v, item = element arg v ∧ tk.Means (valueText arg) v) argv items) ∧
    (out.1 = false → out.2 = none)

section List

variable (tk : Tokener) (print : Value → List UInt8) {argv : List (List UInt8)}

theorem mapM_none (h : ¬ ∀ arg ∈ argv, Accepted arg) :
    argv.mapM (parseAttribute (jsonC tk print)) = none := by
  induction argv with
  | nil => exact absurd (fun arg harg => nomatch harg) h
  | cons arg rest ih =>
      rw [List.mapM_cons]
      by_cases harg : Accepted arg
      · have hrest : ¬ ∀ arg ∈ rest, Accepted arg :=
          fun hall => h (List.forall_mem_cons.mpr ⟨harg, hall⟩)
        rw [ih hrest]
        cases parseAttribute (jsonC tk print) arg with
        | none => rfl
        | some pair => rfl
      · rw [parseAttribute_none _ _ harg]
        rfl

theorem mapM_some (h : ∀ arg ∈ argv, Accepted arg) :
    argv.mapM (parseAttribute (jsonC tk print)) = some (argv.map fun arg =>
      element arg (prvParseAttributeValue (jsonC tk print) (valueText arg))) := by
  induction argv with
  | nil => rfl
  | cons arg rest ih =>
      rw [List.forall_mem_cons] at h
      rw [List.mapM_cons, parseAttribute_some tk print h.1, ih h.2]
      rfl

theorem refused (h : argv = [] ∨ ¬ ∀ arg ∈ argv, Accepted arg) :
    parseAttributes (jsonC tk print) argv = (false, none) := by
  rw [parseAttributes_eq, ticosdParseAttributes]
  rcases h with rfl | hbad
  · rfl
  · rw [mapM_none tk print hbad]
    rfl

theorem accepted (hne : argv ≠ []) (h : ∀ arg ∈ argv, Accepted arg) :
    parseAttributes (jsonC tk print) argv = (true, some (.array (argv.map fun arg =>
      element arg (prvParseAttributeValue (jsonC tk print) (valueText arg))))) := by
  rw [parseAttributes_eq, ticosdParseAttributes, mapM_some tk print h]
  cases argv with
  | nil => exact absurd rfl hne
  | cons arg rest => rfl

theorem element_inj {arg : List UInt8} {v w : Value} (h : element arg v = element arg w) :
    v = w := by
  simpa [element] using h

/-- **The arguments keep their meaning exactly if the list is refused or the tokener leaves
    nothing behind in any value.** -/
theorem attributes_kept_iff (argv : List (List UInt8)) :
    KeepsMeaning tk argv (parseAttributes (jsonC tk print) argv) ↔
      ((∀ arg ∈ argv, Accepted arg) → ∀ arg ∈ argv, tk.ReadsAll (valueText arg)) := by
  by_cases hbad : argv = [] ∨ ¬ ∀ arg ∈ argv, Accepted arg
  · rw [refused tk print hbad]
    refine iff_of_true ⟨iff_of_false nofun ?_, nofun, fun _ => rfl⟩ ?_
    · rintro ⟨hne, hall⟩
      exact hbad.elim hne (fun hnot => hnot hall)
    · rintro hall arg harg
      rcases hbad with rfl | hnot
      · exact nomatch harg
      · exact absurd hall hnot
  · rw [not_or, not_not] at hbad
    obtain ⟨hne, hall⟩ := hbad
    rw [accepted tk print hne hall, imp_iff_right hall]
    have helement : ∀ arg, (∃ v, element arg (prvParseAttributeValue (jsonC tk print)
        (valueText arg)) = element arg v ∧ tk.Means (valueText arg) v) ↔
        tk.ReadsAll (valueText arg) := by
      intro arg
      rw [← value_means_iff tk print]
      constructor
      · rintro ⟨v, heq, hmeans⟩
        rw [element_inj heq]
        exact hmeans
      · exact fun hmeans => ⟨_, rfl, hmeans⟩
    constructor
    · rintro ⟨-, hsuccess, -⟩ arg harg
      obtain ⟨items, heq, hitems⟩ := hsuccess rfl
      obtain rfl : argv.map _ = items := by simpa using heq
      rw [List.forall₂_map_right_iff, List.forall₂_same] at hitems
      exact (helement arg).mp (hitems arg harg)
    · intro hreads
      refine ⟨iff_of_true rfl ⟨hne, hall⟩, fun _ => ⟨_, rfl, ?_⟩, nofun⟩
      rw [List.forall₂_map_right_iff, List.forall₂_same]
      exact fun arg harg => (helement arg).mpr (hreads arg harg)

end List

/-! ## Numbers with something behind them -/

section Decimals

open Decimal (isDigit digitsValue takeWhile_digits NoDigit)

/-- The unsigned numbers among the JSON texts. -/
def NumberText (body : List UInt8) (v : Value) : Prop :=
  body ≠ [] ∧ (∀ b ∈ body, isDigit b = true) ∧ v = .int (digitsValue body)

/-- The digits that the text begins with. -/
def leadingDigits (text : List UInt8) : List UInt8 := (text.dropWhile isWhite).takeWhile isDigit

def parseNumber (text : List UInt8) : Option Value :=
  if leadingDigits text = [] then none else some (.int (digitsValue (leadingDigits text)))

def numberEnd (text : List UInt8) : Nat :=
  (text.takeWhile isWhite).length + (leadingDigits text).length

theorem take_numberEnd (text : List UInt8) :
    text.take (numberEnd text) = text.takeWhile isWhite ++ leadingDigits text := by
  have htext : text.takeWhile isWhite ++ leadingDigits text
      ++ (text.dropWhile isWhite).dropWhile isDigit = text := by
    rw [leadingDigits, List.append_assoc, List.takeWhile_append_dropWhile,
      List.takeWhile_append_dropWhile]
  calc text.take (numberEnd text)
      = (text.takeWhile isWhite ++ leadingDigits text
          ++ (text.dropWhile isWhite).dropWhile isDigit).take
            (text.takeWhile isWhite ++ leadingDigits text).length := by
        rw [htext, List.length_append]
        rfl
    _ = text.takeWhile isWhite ++ leadingDigits text := List.take_left

theorem white_no_digit {trail : List UInt8} (h : White trail) : NoDigit trail := by
  intro b hb
  have hwhite := h b (List.mem_of_mem_head? hb)
  have hkey : ∀ b : UInt8, isWhite b = true → isDigit b = false := by decide +kernel
  exact hkey b hwhite

theorem leadingDigits_whole {lead body trail : List UInt8} {v : Value} (hlead : White lead)
    (hbody : NumberText body v) (htrail : White trail) :
    leadingDigits (lead ++ body ++ trail) = body ∧
      (lead ++ body ++ trail).takeWhile isWhite = lead := by
  obtain ⟨hne, hdigits, -⟩ := hbody
  have hkey : ∀ b : UInt8, isDigit b = true → isWhite b = false := by decide +kernel
  cases body with
  | nil => exact absurd rfl hne
  | cons b body =>
      have hb : ¬ isWhite b = true := by
        rw [hkey b (hdigits b List.mem_cons_self)]
        decide
      rw [List.append_assoc, leadingDigits, List.dropWhile_append_of_pos hlead,
        List.takeWhile_append_of_pos hlead, List.cons_append, List.dropWhile_cons_of_neg hb]
      refine ⟨takeWhile_digits hdigits (white_no_digit htrail), ?_⟩
      rw [List.takeWhile_cons_of_neg hb, List.append_nil]

/-- json-c on unsigned numbers. -/
def numberTokener : Tokener where
  parse := parseNumber
  parseEnd := numberEnd
  Text := NumberText
  starts := by
    intro text v h
    rw [parseNumber] at h
    split at h
    · exact nomatch h
    · rename_i hne
      refine ⟨text.takeWhile isWhite, leadingDigits text, take_numberEnd text, ?_, hne, ?_, ?_⟩
      · exact fun b hb => List.mem_takeWhile_imp hb
      · exact fun b hb => List.mem_takeWhile_imp hb
      · exact (Option.some.inj h).symm
  whole := by
    intro lead body trail v _ hlead hbody htrail
    obtain ⟨hdigits, hwhite⟩ := leadingDigits_whole hlead hbody htrail
    obtain ⟨hne, -, rfl⟩ := hbody
    rw [parseNumber, numberEnd, hdigits, hwhite, if_neg hne, ← List.length_append,
      List.drop_left]
    exact ⟨rfl, htrail⟩
  quoted := by
    rintro body s ⟨-, -, h⟩
    exact nomatch h

end Decimals

theorem number_whole {text : List UInt8} {v : Value} (h : numberTokener.Whole text v) :
    ∀ b ∈ text, isWhite b = true ∨ Decimal.isDigit b = true := by
  obtain ⟨lead, body, trail, rfl, hlead, htrail, -, hdigits, -⟩ := h
  intro b hb
  rw [List.mem_append, List.mem_append] at hb
  rcases hb with (hb | hb) | hb
  · exact Or.inl (hlead b hb)
  · exact Or.inr (hdigits b hb)
  · exact Or.inl (htrail b hb)

/-- Of an address that begins with its number, the number is left. -/
theorem address_cut :
    ¬ KeepsMeaning numberTokener [ascii "address=12 Main Street"]
      (parseAttributes (jsonC numberTokener fun _ => []) [ascii "address=12 Main Street"]) := by
  rintro ⟨-, hsuccess, -⟩
  obtain ⟨items, heq, hitems⟩ := hsuccess (by decide +kernel)
  have hout : (parseAttributes (jsonC numberTokener fun _ => [])
      [ascii "address=12 Main Street"]).2
      = some (.array [element (ascii "address=12 Main Street") (.int 12)]) := rfl
  rw [hout] at heq
  obtain rfl : [element (ascii "address=12 Main Street") (.int 12)] = items := by simpa using heq
  obtain ⟨⟨v, hv, hmeans⟩, -⟩ := List.forall₂_cons.mp hitems
  obtain rfl := element_inj hv
  have hno : ∀ w, numberTokener.Whole (valueText (ascii "address=12 Main Street")) w →
      ¬ Scalar w := by
    intro w hw
    have hletter := number_whole hw 77 (by decide +kernel)
    exact absurd hletter (by decide)
  exact nomatch hmeans.2 hno

end ParseAttributes
