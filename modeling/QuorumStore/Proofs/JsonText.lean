import Mathlib.Data.List.TakeDrop
import QuorumStore.Bytes
import QuorumStore.Json.Printer
import QuorumStore.Json.Reader

/-!
# Printed values are read back

The text that is printed for a value is read back as that value, as long as its
numbers are integers of 64 bits and its lists and objects are not nested too deep.
The argument follows the tokens: each is read off the front of the text, whatever
comes after it, and moves the reading by one step; only the end of a number shows in
what comes after it.
-/

namespace QuorumStore.Json

/-- A value of the kind that members exchange: its numbers are integers of 64 bits, its
objects repeat no field, and lists and objects are nested to a depth at most. -/
inductive Plain : Nat → Json → Prop where
  /-- Nothing. -/
  | null {depth : Nat} : Plain depth .null
  /-- A truth value. -/
  | bool {depth : Nat} (value : Bool) : Plain depth (.bool value)
  /-- An integer of 64 bits, signed or unsigned. -/
  | int {depth : Nat} {value : Int} (least : -9223372036854775808 ≤ value)
      (most : value < 18446744073709551616) : Plain depth (.int value)
  /-- A text. -/
  | text {depth : Nat} (value : String) : Plain depth (.text value)
  /-- A list. -/
  | array {depth : Nat} {items : List Json} (plain : ∀ item ∈ items, Plain depth item) :
      Plain (depth + 1) (.array items)
  /-- An object. -/
  | object {depth : Nat} {fields : List (String × Json)} (names : (fields.map Prod.fst).Nodup)
      (plain : ∀ f ∈ fields, Plain depth f.2) : Plain (depth + 1) (.object fields)

/-- What may come after a value: the end, a comma, or a closing bracket. -/
inductive Stops : List Char → Prop where
  /-- The end of the text. -/
  | done : Stops []
  /-- A comma. -/
  | comma (rest : List Char) : Stops (',' :: rest)
  /-- The end of a list. -/
  | array (rest : List Char) : Stops (']' :: rest)
  /-- The end of an object. -/
  | object (rest : List Char) : Stops ('\x7d' :: rest)

/-! ## Texts -/

theorem hexValue?_hexDigit : ∀ n < 16, hexValue? (hexDigit n) = some n := by decide

/-- The escape of a control character is read back. -/
theorem unicodeEscape?_control {c : Char} (h : c.toNat < 32) (rest : List Char) :
    unicodeEscape? ('0' :: '0' :: hexDigit (c.toNat / 16) :: hexDigit (c.toNat % 16) :: rest)
      = some (c, rest) := by
  have hzero : hexValue? '0' = some 0 := hexValue?_hexDigit 0 (by decide)
  have hhigh := hexValue?_hexDigit (c.toNat / 16) (by omega)
  have hlow := hexValue?_hexDigit (c.toNat % 16) (by omega)
  have hquad : hexQuad? ('0' :: '0' :: hexDigit (c.toNat / 16) :: hexDigit (c.toNat % 16) :: rest)
      = some (c.toNat, rest) := by
    simp only [hexQuad?, hzero, hhigh, hlow, Option.bind_eq_bind, Option.bind_some, pure]
    congr 2
    omega
  have hbmp : c.toNat < 0xD800 ∨ 0xE000 ≤ c.toNat := Or.inl (by omega)
  rw [unicodeEscape?, hquad]
  simp only [Option.bind_eq_bind, Option.bind_some, if_pos hbmp, Char.ofNat_toNat]
  rfl

/-- One character is read back from its escape. -/
theorem textBody_escapeChar (c : Char) (fuel : Nat) (read rest : List Char) :
    textBody (fuel + 1) read (escapeChar c ++ rest) = textBody fuel (c :: read) rest := by
  unfold escapeChar
  split_ifs with hquote hslash hline hreturn htab hcontrol
  · subst hquote
    rfl
  · subst hslash
    rfl
  · subst hline
    rfl
  · subst hreturn
    rfl
  · subst htab
    rfl
  · simp only [List.cons_append, List.nil_append, textBody, escape?,
      unicodeEscape?_control hcontrol]
  · rw [List.singleton_append, textBody, if_neg hcontrol]
    · exact hquote
    · exact hslash

/-- A text is read back from its quoted form. -/
theorem textBody_escaped (chars read rest : List Char) {fuel : Nat} (h : chars.length ≤ fuel) :
    textBody fuel read (chars.flatMap escapeChar ++ '"' :: rest)
      = some (String.ofList (read.reverse ++ chars), rest) := by
  induction chars generalizing read fuel with
  | nil => simp [textBody]
  | cons c chars ih =>
    obtain ⟨fuel, rfl⟩ := Nat.exists_eq_add_of_le' (Nat.le_trans (Nat.le_add_left 1 _) h)
    rw [List.flatMap_cons, List.append_assoc, textBody_escapeChar,
      ih (c :: read) (by simpa using h)]
    simp

theorem length_le_flatMap_escapeChar (chars : List Char) :
    chars.length ≤ (chars.flatMap escapeChar).length := by
  induction chars with
  | nil => simp
  | cons c chars ih =>
    have hpos : 0 < (escapeChar c).length := by
      unfold escapeChar
      split_ifs <;> simp
    rw [List.flatMap_cons, List.length_append, List.length_cons]
    omega

theorem toList_quote (s : String) :
    (quote s).toList = '"' :: (s.toList.flatMap escapeChar ++ ['"']) := by
  rw [quote, String.toList_ofList, List.cons_append]

/-! ## Numbers -/

theorem decimalValue_toDigits (n : Nat) : decimalValue (Nat.toDigits 10 n) = n := by
  have hsame : decimalValue (Nat.toDigits 10 n) = Nat.ofDigitChars 10 (Nat.toDigits 10 n) 0 := by
    unfold decimalValue Nat.ofDigitChars
    congr 1
    funext value c
    rw [Nat.mul_comm]
    rfl
  rw [hsame, Nat.ofDigitChars_ten_toDigits]

/-- A number is written without leading zeros. -/
theorem toDigits_eq_cons (n : Nat) :
    ∃ c cs, Nat.toDigits 10 n = c :: cs ∧ (c = '0' → cs = []) := by
  induction n using Nat.strongRecOn with
  | _ n ih =>
    by_cases hsmall : n < 10
    · exact ⟨_, [], Nat.toDigits_of_lt_base hsmall, fun _ => rfl⟩
    · have hlarge : 10 ≤ n := Nat.le_of_not_lt hsmall
      obtain ⟨c, cs, hdigits, hlead⟩ := ih (n / 10) (by omega)
      refine ⟨c, cs ++ [(n % 10).digitChar], ?_, fun hzero => ?_⟩
      · rw [Nat.toDigits_of_base_le (by decide) hlarge, hdigits, List.cons_append]
      · -- a zero alone would stand for all digits but the last, of a number above nine
        have hvalue := decimalValue_toDigits (n / 10)
        rw [hdigits, hlead hzero, hzero] at hvalue
        have hnone : decimalValue ['0'] = 0 := rfl
        omega

theorem span_isDigit {digits rest : List Char} (hdigits : ∀ c ∈ digits, c.isDigit = true)
    (hrest : Stops rest) : (digits ++ rest).span Char.isDigit = (digits, rest) := by
  have hstop : rest.takeWhile Char.isDigit = [] ∧ rest.dropWhile Char.isDigit = rest := by
    cases hrest <;> exact ⟨rfl, rfl⟩
  rw [List.span_eq_takeWhile_dropWhile, List.takeWhile_append_of_pos hdigits,
    List.dropWhile_append_of_pos hdigits, hstop.1, hstop.2, List.append_nil]

/-- The digits of a number are read back, as far as 64 bits hold them. -/
theorem number?_toDigits (negative : Bool) (n : Nat) {rest : List Char} (hrest : Stops rest)
    (hfits : if negative then 0 < n ∧ n ≤ 9223372036854775808 else n < 18446744073709551616) :
    number? negative (Nat.toDigits 10 n ++ rest)
      = some (int (if negative then -Int.ofNat n else Int.ofNat n), rest) := by
  have hdigit (c : Char) (hc : c ∈ Nat.toDigits 10 n) : c.isDigit = true :=
    Nat.isDigit_of_mem_toDigits (by decide) (Nat.le_refl 10) hc
  have hvalue := decimalValue_toDigits n
  obtain ⟨c, cs, hdigits, hlead⟩ := toDigits_eq_cons n
  rw [number?, span_isDigit hdigit hrest]
  rw [hdigits] at hvalue ⊢
  have hshape : ∀ d ds, (c :: cs = '0' :: d :: ds) → False := by
    intro d ds h
    cases h
    cases hlead rfl
  -- no point and no exponent follow, so only the integer branches are left
  cases hrest <;> cases negative <;> simp_all

/-- A digit begins a number that is not negative. -/
theorem token?_digit {c : Char} (h : c.isDigit = true) (fuel : Nat) (rest : List Char) :
    token? fuel (c :: rest)
      = (number? false (c :: rest)).map fun (n, rest) => (.scalar n, rest) := by
  unfold token?
  split
  case h_12 => rfl
  -- no other token begins with a digit
  all_goals
    rename_i heq
    cases heq
    cases h

theorem isBlank_digit {c : Char} (h : c.isDigit = true) : isBlank c = false := by
  by_contra hblank
  rw [Bool.not_eq_false, isBlank] at hblank
  simp only [Bool.or_eq_true, decide_eq_true_eq] at hblank
  obtain ((rfl | rfl) | rfl) | rfl := hblank <;> cases h

/-- A number is written as its digits, after a sign if it is negative. -/
theorem toList_print_int (value : Int) :
    (print (int value)).toList = if 0 ≤ value then Nat.toDigits 10 value.toNat
      else '-' :: Nat.toDigits 10 (-value).toNat := by
  rw [print, Int.toString_eq_repr, Int.repr_eq_if]
  split_ifs
  · exact Nat.toList_repr
  · rw [String.toList_append, Nat.toList_repr]
    rfl

/-! ## Reading on -/

/-- From a state, the rest of a text is read to its end, and gives a value. -/
def Reads (state : Reading) (input : List Char) (result : Json) : Prop :=
  ∀ fuel, input.length ≤ fuel → Reading.run fuel state input = some result

theorem reads_complete (value : Json) : Reads (.complete value) [] value := by
  intro fuel _
  unfold Reading.run
  rfl

/-- One token is read off the front, and the rest from the state after it. -/
theorem Reads.token {state next : Reading} {c : Char} {more rest : List Char} {t : Token}
    {result : Json} (h : Reads next rest result) (hblank : isBlank c = false)
    (hshort : rest.length ≤ more.length)
    (htoken : ∀ fuel, more.length < fuel → token? fuel (c :: more) = some (t, rest))
    (hstep : state.step t = some next) : Reads state (c :: more) result := by
  intro fuel hfuel
  obtain ⟨fuel, rfl⟩ := Nat.exists_eq_add_of_le' (Nat.le_trans (Nat.le_add_left 1 _) hfuel)
  have hroom : more.length ≤ fuel := Nat.le_of_succ_le_succ hfuel
  unfold Reading.run
  rw [List.dropWhile_cons_of_neg (by simp [hblank])]
  simp only [htoken (fuel + 1) (Nat.lt_succ_of_le hroom), hstep]
  exact h fuel (Nat.le_trans hshort hroom)

/-- A quoted text is one token. -/
theorem Reads.quoted {state next : Reading} {s : String} {rest : List Char} {result : Json}
    (h : Reads next rest result) (hstep : state.step (.scalar (.text s)) = some next) :
    Reads state ((quote s).toList ++ rest) result := by
  rw [toList_quote, List.cons_append, List.append_assoc]
  have hlength := length_le_flatMap_escapeChar s.toList
  refine h.token rfl ?_ (fun fuel hfuel => ?_) hstep
  · rw [List.length_append, List.length_append]
    omega
  rw [List.length_append] at hfuel
  have hroom : s.toList.length ≤ fuel := by omega
  rw [token?, List.singleton_append, textBody_escaped _ _ _ hroom]
  simp

/-- An integer of 64 bits is one token. -/
theorem Reads.integer {state next : Reading} {value : Int} {rest : List Char} {result : Json}
    (least : -9223372036854775808 ≤ value) (most : value < 18446744073709551616)
    (hstops : Stops rest) (h : Reads next rest result)
    (hstep : state.step (.scalar (.int value)) = some next) :
    Reads state ((print (int value)).toList ++ rest) result := by
  rw [toList_print_int]
  split_ifs with hsign
  · obtain ⟨c, cs, hdigits, -⟩ := toDigits_eq_cons value.toNat
    have hc : c.isDigit = true :=
      Nat.isDigit_of_mem_toDigits (by decide) (Nat.le_refl 10) (hdigits ▸ List.mem_cons_self)
    have hnumber := number?_toDigits false value.toNat hstops (by
      rw [if_neg Bool.false_ne_true]
      omega)
    rw [hdigits, List.cons_append] at hnumber
    rw [hdigits, List.cons_append]
    refine h.token (isBlank_digit hc) (by simp) (fun fuel _ => ?_) hstep
    rw [token?_digit hc, hnumber]
    simp [Int.toNat_of_nonneg hsign]
  · have hnumber := number?_toDigits true (-value).toNat hstops (by
      rw [if_pos rfl]
      omega)
    have hvalue : -Int.ofNat (-value).toNat = value := by
      have : ((-value).toNat : Int) = -value := Int.toNat_of_nonneg (by omega)
      simp only [Int.ofNat_eq_natCast]
      omega
    rw [List.cons_append]
    refine h.token rfl (by simp) (fun fuel _ => ?_) hstep
    rw [token?, hnumber, if_pos rfl, hvalue]
    rfl

/-! ## Lists and objects -/

/-- What begins a value: a scalar, or an opening bracket. -/
inductive Token.Begins : Token → Prop where
  /-- A scalar. -/
  | scalar (value : Json) : Begins (.scalar value)
  /-- A list. -/
  | openArray : Begins .openArray
  /-- An object. -/
  | openObject : Begins .openObject

/-- Wherever a value is due and not nested too deep, its text is read as the value. -/
def Legible (depth : Nat) (j : Json) : Prop :=
  ∀ (frames : List Frame) (state : Reading) (rest : List Char) (result : Json),
    frames.length + depth < depthLimit →
    (∀ t : Token, t.Begins → state.step t = Reading.begin t frames) → Stops rest →
    Reads (.deliver j frames) rest result → Reads state ((print j).toList ++ rest) result

theorem begin_value (frames : List Frame) (t : Token) (_ : t.Begins) :
    (Reading.awaiting .value frames).step t = Reading.begin t frames := rfl

theorem begin_firstItem (frames : List Frame) {t : Token} (h : t.Begins) :
    (Reading.awaiting .firstItem frames).step t = Reading.begin t frames := by
  cases h <;> rfl

theorem stops_items (items : List Json) (rest : List Char) :
    Stops ((items.map fun item => ',' :: (print item).toList).flatten ++ ']' :: rest) := by
  cases items
  · exact .array rest
  · exact .comma _

/-- The further items of a list, each after a comma, and its end. -/
theorem reads_items {depth : Nat} {items : List Json}
    (hitems : ∀ item ∈ items, Legible depth item) {frames : List Frame}
    (hdepth : frames.length + 1 + depth < depthLimit) {done : List Json} {rest : List Char}
    {result : Json}
    (h : Reads (.deliver (.array (done.reverse ++ items)) frames) rest result) :
    Reads (.awaiting .more (.items done :: frames))
      ((items.map fun item => ',' :: (print item).toList).flatten ++ ']' :: rest) result := by
  induction items generalizing done with
  | nil =>
    rw [List.append_nil] at h
    exact h.token rfl (Nat.le_refl _) (fun _ _ => rfl) rfl
  | cons item items ih =>
    obtain ⟨hitem, hothers⟩ := List.forall_mem_cons.1 hitems
    have hmore : Reads (.awaiting .more (.items (item :: done) :: frames)) _ result :=
      ih hothers (by simpa using h)
    have hvalue := hitem (.items done :: frames) (.awaiting .value (.items done :: frames)) _ _
      hdepth (begin_value _) (stops_items items rest) hmore
    rw [List.map_cons, List.flatten_cons, List.cons_append, List.cons_append, List.append_assoc]
    exact hvalue.token rfl (Nat.le_refl _) (fun _ _ => rfl) rfl

/-- What is written for a field of an object. -/
def fieldText (f : String × Json) : List Char :=
  (quote f.1).toList ++ ':' :: (print f.2).toList

/-- A field, once its name is due, and what comes after it. -/
theorem reads_field {depth : Nat} {f : String × Json} (name : String)
    (hvalue : Legible depth f.2) {frames : List Frame}
    (hdepth : frames.length + 1 + depth < depthLimit) {state : Reading}
    {done : List (String × Json)}
    (hstep : state.step (.scalar (.text f.1))
      = Reading.takeName (.scalar (.text f.1)) (.fields done name :: frames))
    {rest : List Char} {result : Json} (hstops : Stops rest)
    (h : Reads (.awaiting .more (.fields (f :: done) f.1 :: frames)) rest result) :
    Reads state (fieldText f ++ rest) result := by
  have hread := hvalue (.fields done f.1 :: frames) (.awaiting .value (.fields done f.1 :: frames))
    _ _ hdepth (begin_value _) hstops h
  have hcolon : Reads (.awaiting .colon (.fields done f.1 :: frames))
      (':' :: ((print f.2).toList ++ rest)) result :=
    hread.token rfl (Nat.le_refl _) (fun _ _ => rfl) rfl
  rw [fieldText, List.append_assoc, List.cons_append]
  exact hcolon.quoted hstep

theorem stops_fields (fields : List (String × Json)) (rest : List Char) :
    Stops ((fields.map fun f => ',' :: fieldText f).flatten ++ '\x7d' :: rest) := by
  cases fields
  · exact .object rest
  · exact .comma _

/-- The further fields of an object, each after a comma, and its end. -/
theorem reads_fields {depth : Nat} {fields : List (String × Json)}
    (hfields : ∀ f ∈ fields, Legible depth f.2) {frames : List Frame}
    (hdepth : frames.length + 1 + depth < depthLimit) {done : List (String × Json)}
    {name : String} {rest : List Char} {result : Json}
    (h : Reads (.deliver (.object (done.reverse ++ fields)) frames) rest result) :
    Reads (.awaiting .more (.fields done name :: frames))
      ((fields.map fun f => ',' :: fieldText f).flatten ++ '\x7d' :: rest) result := by
  induction fields generalizing done name with
  | nil =>
    rw [List.append_nil] at h
    exact h.token rfl (Nat.le_refl _) (fun _ _ => rfl) rfl
  | cons f fields ih =>
    obtain ⟨hfield, hothers⟩ := List.forall_mem_cons.1 hfields
    have hmore : Reads (.awaiting .more (.fields (f :: done) f.1 :: frames)) _ result :=
      ih hothers (by simpa using h)
    have hfirst : Reads (.awaiting .name (.fields done name :: frames)) _ result :=
      reads_field name hfield hdepth rfl (stops_fields fields rest) hmore
    rw [List.map_cons, List.flatten_cons, List.cons_append, List.cons_append, List.append_assoc]
    exact hfirst.token rfl (Nat.le_refl _) (fun _ _ => rfl) rfl

theorem printItems_eq (items : List Json) : printItems items = items.map print := by
  induction items with
  | nil => rfl
  | cons item items ih => rw [printItems, ih, List.map_cons]

theorem printFields_eq (fields : List (String × Json)) :
    printFields fields = fields.map fun f => String.ofList (fieldText f) := by
  induction fields with
  | nil => rfl
  | cons f fields ih =>
    obtain ⟨name, value⟩ := f
    have hfield : quote name ++ ":" ++ print value = String.ofList (fieldText (name, value)) := by
      rw [← String.toList_inj, String.toList_ofList, String.toList_append, String.toList_append,
        List.append_assoc]
      rfl
    rw [printFields, ih, List.map_cons, hfield]

/-- Texts with commas between them: the first, and each other one after a comma. -/
theorem toList_commas (s : String) (rest : List String) :
    (String.intercalate "," (s :: rest)).toList
      = s.toList ++ (rest.map fun t => ',' :: t.toList).flatten := by
  induction rest generalizing s with
  | nil => simp
  | cons t rest ih =>
    rw [String.intercalate_cons_cons, String.toList_append, String.toList_append, ih,
      List.map_cons, List.flatten_cons, List.append_assoc]
    rfl

theorem enter_eq_some (due : Due) (frame : Frame) {frames : List Frame} {depth : Nat}
    (h : frames.length + (depth + 1) < depthLimit) :
    Reading.enter due frame frames = some (.awaiting due (frame :: frames)) :=
  if_pos (by omega)

/-- A list is read back when its items are. -/
theorem legible_array {depth : Nat} {items : List Json}
    (hitems : ∀ item ∈ items, Legible depth item) : Legible (depth + 1) (.array items) := by
  intro frames state rest result hdepth hstate _ hread
  have hinner : frames.length + 1 + depth < depthLimit := by omega
  have hopen : state.step .openArray = some (.awaiting .firstItem (.items [] :: frames)) :=
    (hstate _ .openArray).trans (enter_eq_some _ _ hdepth)
  have htext : (print (array items)).toList ++ rest
      = '[' :: ((String.intercalate "," (items.map print)).toList ++ ']' :: rest) := by
    rw [print, printItems_eq, String.toList_append, String.toList_append, List.append_assoc,
      List.append_assoc]
    rfl
  rw [htext]
  refine Reads.token ?_ rfl (Nat.le_refl _) (fun _ _ => rfl) hopen
  cases items with
  | nil => exact hread.token rfl (Nat.le_refl _) (fun _ _ => rfl) rfl
  | cons item items =>
    obtain ⟨hitem, hothers⟩ := List.forall_mem_cons.1 hitems
    have hmore : Reads (.awaiting .more (.items [item] :: frames)) _ result :=
      reads_items hothers hinner hread
    rw [List.map_cons, toList_commas, List.map_map, List.append_assoc]
    exact hitem (.items [] :: frames) _ _ _ hinner (fun _ => begin_firstItem _)
      (stops_items items rest) hmore

/-- An object is read back when the values of its fields are. -/
theorem legible_object {depth : Nat} {fields : List (String × Json)}
    (hfields : ∀ f ∈ fields, Legible depth f.2) : Legible (depth + 1) (.object fields) := by
  intro frames state rest result hdepth hstate _ hread
  have hinner : frames.length + 1 + depth < depthLimit := by omega
  have hopen : state.step .openObject = some (.awaiting .firstName (.fields [] "" :: frames)) :=
    (hstate _ .openObject).trans (enter_eq_some _ _ hdepth)
  have htext : (print (object fields)).toList ++ rest
      = '\x7b' :: ((String.intercalate "," (printFields fields)).toList ++ '\x7d' :: rest) := by
    rw [print, String.toList_append, String.toList_append, List.append_assoc, List.append_assoc]
    rfl
  rw [htext]
  refine Reads.token ?_ rfl (Nat.le_refl _) (fun _ _ => rfl) hopen
  cases fields with
  | nil => exact hread.token rfl (Nat.le_refl _) (fun _ _ => rfl) rfl
  | cons f fields =>
    obtain ⟨hfield, hothers⟩ := List.forall_mem_cons.1 hfields
    have hmore : Reads (.awaiting .more (.fields [f] f.1 :: frames)) _ result :=
      reads_fields hothers hinner hread
    have hfirst : Reads (.awaiting .firstName (.fields [] "" :: frames)) _ result :=
      reads_field "" hfield hinner rfl (stops_fields fields rest) hmore
    rw [printFields_eq, List.map_cons, toList_commas, List.map_map, List.append_assoc,
      String.toList_ofList]
    simpa only [Function.comp_def, String.toList_ofList] using hfirst

/-- Every value of the kind that members exchange is read back. -/
theorem Plain.legible {depth : Nat} {j : Json} (h : Plain depth j) : Legible depth j := by
  induction h with
  | null =>
    intro frames state rest result _ hstate _ hread
    exact hread.token rfl (Nat.le_add_right _ 3) (fun _ _ => rfl) (hstate _ (.scalar _))
  | bool value =>
    intro frames state rest result _ hstate _ hread
    cases value
    · exact hread.token rfl (Nat.le_add_right _ 4) (fun _ _ => rfl) (hstate _ (.scalar _))
    · exact hread.token rfl (Nat.le_add_right _ 3) (fun _ _ => rfl) (hstate _ (.scalar _))
  | int least most =>
    intro frames state rest result _ hstate hstops hread
    exact hread.integer least most hstops (hstate _ (.scalar _))
  | text value =>
    intro frames state rest result _ hstate _ hread
    exact hread.quoted (hstate _ (.scalar _))
  | array _ ih => exact legible_array ih
  | object _ _ ih => exact legible_object ih

/-- The text of a value is read as the value. -/
theorem parse?_print {depth : Nat} {j : Json} (h : Plain depth j) (hdepth : depth < depthLimit) :
    parse? (print j) = some j := by
  have hread : Reads (.awaiting .value []) ((print j).toList ++ []) j :=
    h.legible [] _ [] j (by simpa using hdepth) (begin_value []) .done (reads_complete j)
  rw [List.append_nil] at hread
  exact hread _ (Nat.le_refl _)

/-- The octets of the text of a value are read as the value. -/
theorem ofBytes?_print {depth : Nat} {j : Json} (h : Plain depth j) (hdepth : depth < depthLimit) :
    ofBytes? (Bytes.ofText (print j)) = some j := by
  have hutf8 : String.fromUTF8? (print j).toUTF8 = some (print j) := by
    have hvalid : (print j).toUTF8.IsValidUTF8 := (print j).isValidUTF8
    rw [String.fromUTF8?, dif_pos hvalid]
    rfl
  exact (congrArg (Option.bind · parse?) hutf8).trans (parse?_print h hdepth)

end QuorumStore.Json
