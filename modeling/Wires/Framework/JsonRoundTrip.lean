import Wires.Framework.Json

/-!
# Reading back printed JSON

`Json.parse_compact`: the parser inverts the compact printer, so two values
with one text are one value (`Json.compact_injective`). Both are by recursion
on the value: the text of each part is shorter than the text it stands in, so
the length of the text is fuel enough.
-/

namespace Wires.Json

/-! ## Strings -/

theorem hex4_control {c : Char} (h : c.toNat < 32) :
    hex4 '0' '0' (hexDigit (c.toNat / 16)) (hexDigit (c.toNat % 16)) = some c.toNat := by
  have h0 : hexVal '0' = some 0 := by decide
  rw [hex4, h0, hexVal_hexDigit _ (by omega), hexVal_hexDigit _ (by omega)]
  exact congrArg some (by omega)

theorem parseString_escapeChar (c : Char) (r : List Char) :
    parseString (escapeChar c ++ r) = consTo c (parseString r) := by
  unfold escapeChar
  split_ifs with h1 h2 h3 h4 h5 h6 h7 h8
  · subst h1; simp [parseString]
  · subst h2; simp [parseString]
  · subst h3; simp [parseString]
  · subst h4; simp [parseString]
  · subst h5; simp [parseString]
  · subst h6; simp [parseString]
  · subst h7; simp [parseString]
  · simp only [List.cons_append, List.nil_append, parseString, hex4_control h8]
    rw [if_neg (by omega), if_neg (by omega), Char.ofNat_toNat]
  · rw [List.singleton_append, parseString.eq_def]
    split <;> simp_all

theorem parseString_escape (s r : List Char) :
    parseString (s.flatMap escapeChar ++ '"' :: r) = some (s, r) := by
  induction s with
  | nil => simp [parseString]
  | cons c s ih => rw [List.flatMap_cons, List.append_assoc, parseString_escapeChar, ih]; rfl

/-! ## Numbers -/

/-- No digit comes next. -/
def EndsDigits : List Char → Prop
  | c :: _ => c.isDigit = false
  | [] => True

/-- A text a number may stand before: it goes on with no digit, point or exponent. -/
def EndsNumber : List Char → Prop
  | c :: _ => c.isDigit = false ∧ c ≠ '.' ∧ c ≠ 'e' ∧ c ≠ 'E'
  | [] => True

theorem EndsNumber.endsDigits {r : List Char} (h : EndsNumber r) : EndsDigits r := by
  cases r with
  | nil => trivial
  | cons c r => exact h.1

theorem spanDigits_append {ds r : List Char} (hd : ∀ c ∈ ds, c.isDigit = true)
    (hr : EndsDigits r) : spanDigits (ds ++ r) = (ds, r) := by
  rw [spanDigits, List.takeWhile_append_of_pos hd, List.dropWhile_append_of_pos hd]
  cases r with
  | nil => simp
  | cons c r =>
    have hc : c.isDigit = false := hr
    simp [hc]

/-- A number's digits have no leading zero. -/
theorem head_toDigits {n : Nat} (h : (Nat.toDigits 10 n).head? = some '0') :
    Nat.toDigits 10 n = ['0'] := by
  induction n using Nat.strong_induction_on with
  | _ n ih =>
    rcases Nat.lt_or_ge n 10 with hn | hn
    · rw [Nat.toDigits_of_lt_base hn] at h ⊢
      simp_all
    · rw [Nat.toDigits_of_base_le (by omega) hn,
        List.head?_append_of_ne_nil _ Nat.toDigits_ne_nil] at h
      have hz := congrArg (Nat.ofDigitChars 10 · 0) (ih (n / 10) (by omega) h)
      rw [Nat.ofDigitChars_ten_toDigits] at hz
      have : n / 10 = 0 := hz
      omega

theorem isDigit_toDigits {n : Nat} {c : Char} (hc : c ∈ Nat.toDigits 10 n) : c.isDigit = true :=
  Nat.isDigit_of_mem_toDigits (b := 10) (n := n) (by omega) (by omega) hc

theorem parseNat_toDigits (n : Nat) {r : List Char} (h : EndsDigits r) :
    parseNat (Nat.toDigits 10 n ++ r) = some (n, r) := by
  have hs := spanDigits_append (fun c hc => isDigit_toDigits (n := n) hc) h
  rw [parseNat, hs]
  show (if _ then _ else _) = _
  rw [if_neg, Nat.ofDigitChars_ten_toDigits]
  rintro (h0 | ⟨h0, hne⟩)
  · exact Nat.toDigits_ne_nil h0
  · exact hne (head_toDigits h0)

/-- A number's first character is a digit. -/
theorem toDigits_eq_cons (n : Nat) : ∃ c cs, Nat.toDigits 10 n = c :: cs ∧ c.isDigit = true := by
  cases h : Nat.toDigits 10 n with
  | nil => exact absurd h Nat.toDigits_ne_nil
  | cons c cs => exact ⟨c, cs, rfl, isDigit_toDigits (n := n) (by rw [h]; exact List.mem_cons_self)⟩

theorem isDigit_digitChar (d : Fin 10) : (Nat.digitChar d).isDigit = true := by
  revert d
  decide

theorem digitVal_digitChar (d : Fin 10) : digitVal (Nat.digitChar d) = d := by
  revert d
  decide

theorem parseFraction_fraction (f : List (Fin 10)) {r : List Char} (hr : EndsDigits r)
    (hdot : ∀ r', r ≠ '.' :: r') : parseFraction (fraction f ++ r) = some (f, r) := by
  cases f with
  | nil =>
    rw [fraction, List.nil_append, parseFraction.eq_def]
    split
    · rename_i r'
      exact absurd rfl (hdot r')
    · rfl
  | cons d ds =>
    have hd : ∀ c ∈ (d :: ds).map fun d : Fin 10 => Nat.digitChar d.val, c.isDigit = true := by
      intro c hc
      obtain ⟨d', -, rfl⟩ := List.mem_map.mp hc
      exact isDigit_digitChar d'
    rw [fraction, List.cons_append, parseFraction, spanDigits_append hd hr]
    show (if _ then _ else _) = _
    rw [if_neg (by simp), List.map_map]
    simp [Function.comp_def, digitVal_digitChar]

/-- A text that starts with a digit has no sign to take off. -/
theorem parseSign_toDigits (n : Nat) (r : List Char) :
    parseSign (Nat.toDigits 10 n ++ r) = (false, Nat.toDigits 10 n ++ r) := by
  obtain ⟨c, cs, h, hd⟩ := toDigits_eq_cons n
  rw [h, List.cons_append, parseSign.eq_def]
  split
  · rename_i heq
    rw [List.cons.injEq] at heq
    rw [heq.1] at hd
    exact absurd hd (by decide)
  · rename_i heq
    rw [List.cons.injEq] at heq
    rw [heq.1] at hd
    exact absurd hd (by decide)
  · rfl

theorem parseSign_number (i : Int) (r : List Char) :
    parseSign (number i ++ r) = (decide (i < 0), Nat.toDigits 10 i.natAbs ++ r) := by
  unfold number
  split_ifs with hi
  · simp [parseSign, hi]
  · rw [parseSign_toDigits]
    simp [hi]

theorem parseExponent_exponent (e : Option Int) {r : List Char} (h : EndsNumber r) :
    parseExponent (exponent e ++ r) = some (e, r) := by
  cases e with
  | none =>
    cases r with
    | nil => rfl
    | cons c r =>
      have hc : ¬(c = 'e' ∨ c = 'E') := by
        rintro (rfl | rfl)
        · exact h.2.2.1 rfl
        · exact h.2.2.2 rfl
      simp [exponent, parseExponent, hc]
  | some e =>
    have hs := spanDigits_append (fun c hc => isDigit_toDigits (n := e.natAbs) hc) h.endsDigits
    have hsign : (if decide (e < 0) = true then -(e.natAbs : Int) else e.natAbs) = e := by
      split_ifs with he
      · have := of_decide_eq_true he
        omega
      · have : ¬e < 0 := fun h => he (decide_eq_true h)
        omega
    simp only [exponent, List.cons_append, parseExponent, true_or, if_true, parseSign_number, hs,
      if_neg Nat.toDigits_ne_nil, Nat.ofDigitChars_ten_toDigits, hsign]

theorem endsDigits_exponent (e : Option Int) {r : List Char} (h : EndsNumber r) :
    EndsDigits (exponent e ++ r) ∧ ∀ r', exponent e ++ r ≠ '.' :: r' := by
  cases e with
  | none =>
    refine ⟨h.endsDigits, fun r' hr => ?_⟩
    rw [exponent, List.nil_append] at hr
    rw [hr] at h
    exact h.2.1 rfl
  | some e => exact ⟨by show Char.isDigit 'e' = false; decide, fun r' hr => by simp [exponent] at hr⟩

theorem endsDigits_fraction (f : List (Fin 10)) {r : List Char} (hr : EndsDigits r) :
    EndsDigits (fraction f ++ r) := by
  cases f with
  | nil => exact hr
  | cons d ds => show Char.isDigit '.' = false; decide

/-- A number's parts are read back. -/
theorem parseUnsigned_text (neg : Bool) (n : Nat) (f : List (Fin 10)) (e : Option Int)
    {r : List Char} (h : EndsNumber r) :
    parseUnsigned neg (Nat.toDigits 10 n ++ (fraction f ++ (exponent e ++ r))) =
      if h : f ≠ [] ∨ e.isSome = true ∨ neg = true ∧ n = 0 then
        some (.float ⟨neg, n, f, e, h⟩, r)
      else some (.num (if neg then -n else n), r) := by
  obtain ⟨he, hdot⟩ := endsDigits_exponent e h
  simp only [parseUnsigned, parseNat_toDigits n (endsDigits_fraction f he),
    parseFraction_fraction f he hdot, parseExponent_exponent e h, Option.bind_eq_bind,
    Option.bind_some]

/-- A number's first character is a minus sign or a digit. -/
theorem number_eq_cons (i : Int) :
    ∃ c cs, number i = c :: cs ∧ (c = '-' ∨ c.isDigit = true) := by
  unfold number
  split_ifs
  · exact ⟨_, _, rfl, .inl rfl⟩
  · obtain ⟨c, cs, h, hd⟩ := toDigits_eq_cons i.natAbs
    exact ⟨c, cs, h, .inr hd⟩

theorem floatText_eq_cons (f : FloatLit) :
    ∃ c cs, floatText f = c :: cs ∧ (c = '-' ∨ c.isDigit = true) := by
  unfold floatText
  split_ifs
  · exact ⟨_, _, rfl, .inl rfl⟩
  · obtain ⟨c, cs, h, hd⟩ := toDigits_eq_cons f.whole
    exact ⟨c, cs ++ (fraction f.frac ++ exponent f.exp), by rw [h]; rfl, .inr hd⟩

/-- Text that starts with a digit has no sign. -/
theorem parseNumber_of_digit {c : Char} (hc : c.isDigit = true) (cs : List Char) :
    parseNumber (c :: cs) = parseUnsigned false (c :: cs) := by
  rw [parseNumber.eq_def]
  split
  · rename_i heq
    rw [List.cons.injEq] at heq
    rw [heq.1] at hc
    exact absurd hc (by decide)
  · rfl

theorem parseNumber_toDigits (n : Nat) (r : List Char) :
    parseNumber (Nat.toDigits 10 n ++ r) = parseUnsigned false (Nat.toDigits 10 n ++ r) := by
  obtain ⟨c, cs, h, hd⟩ := toDigits_eq_cons n
  rw [h, List.cons_append, parseNumber_of_digit hd]

theorem parseNumber_number (i : Int) {r : List Char} (h : EndsNumber r) :
    parseNumber (number i ++ r) = some (.num i, r) := by
  unfold number
  split_ifs with hi
  · have hp := parseUnsigned_text true i.natAbs [] none h
    rw [dif_neg (by simp; omega)] at hp
    rw [List.cons_append, parseNumber]
    refine hp.trans ?_
    simp only [if_true, Option.some.injEq, Prod.mk.injEq, num.injEq, and_true]
    omega
  · have hp := parseUnsigned_text false i.natAbs [] none h
    rw [dif_neg (by simp)] at hp
    rw [parseNumber_toDigits]
    refine hp.trans ?_
    simp only [Bool.false_eq_true, if_false, Option.some.injEq, Prod.mk.injEq, num.injEq, and_true]
    omega

theorem parseNumber_floatText (f : FloatLit) {r : List Char} (h : EndsNumber r) :
    parseNumber (floatText f ++ r) = some (.float f, r) := by
  obtain ⟨neg, whole, frac, exp, hf⟩ := f
  have hp := parseUnsigned_text neg whole frac exp h
  rw [dif_pos hf] at hp
  cases neg
  · simp only [floatText, Bool.false_eq_true, if_false, List.nil_append, List.append_assoc]
    rw [parseNumber_toDigits, hp]
  · simp only [floatText, if_true, List.cons_append, List.append_assoc, List.nil_append]
    rw [parseNumber, hp]

/-! ## Values -/

theorem skipWs_cons {c : Char} (h : isWs c = false) (cs : List Char) :
    skipWs (c :: cs) = c :: cs := by
  simp [skipWs, h]

theorem endsNumber_cons {c : Char} (h : c.isDigit = false ∧ c ≠ '.' ∧ c ≠ 'e' ∧ c ≠ 'E')
    (r : List Char) : EndsNumber (c :: r) := h

theorem compact_pos (v : Json) : 0 < v.compact.length := by
  cases v with
  | bool b => cases b <;> simp [compact]
  | num i => obtain ⟨c, cs, h, -⟩ := number_eq_cons i; simp [compact, h]
  | float f => obtain ⟨c, cs, h, -⟩ := floatText_eq_cons f; simp [compact, h]
  | _ => simp [compact, quote]

theorem numeral_head {c : Char} (hc : c = '-' ∨ c.isDigit = true) (cs : List Char) :
    skipWs (c :: cs) = c :: cs ∧ ∀ cs', c :: cs ≠ ']' :: cs' := by
  have hw : isWs c = false := by
    rcases hc with rfl | hc
    · decide
    · simp only [isWs, Bool.or_eq_false_iff, decide_eq_false_iff_not]
      refine ⟨⟨⟨?_, ?_⟩, ?_⟩, ?_⟩ <;> rintro rfl <;> exact absurd hc (by decide)
  refine ⟨skipWs_cons hw cs, fun cs' he => ?_⟩
  rw [List.cons.injEq] at he
  rcases hc with rfl | hc
  · exact absurd he.1 (by decide)
  · rw [he.1] at hc
    exact absurd hc (by decide)

/-- A printed value starts with none of the characters that close or separate values. -/
theorem compact_head (v : Json) (r : List Char) :
    skipWs (v.compact ++ r) = v.compact ++ r ∧ ∀ cs, v.compact ++ r ≠ ']' :: cs := by
  cases v with
  | null => simp [compact, skipWs_cons (c := 'n') (by decide)]
  | bool b =>
    cases b
    · simp [compact, skipWs_cons (c := 'f') (by decide)]
    · simp [compact, skipWs_cons (c := 't') (by decide)]
  | num i =>
    obtain ⟨c, cs, h, hc⟩ := number_eq_cons i
    rw [compact, h, List.cons_append]
    exact numeral_head hc _
  | float f =>
    obtain ⟨c, cs, h, hc⟩ := floatText_eq_cons f
    rw [compact, h, List.cons_append]
    exact numeral_head hc _
  | str s => simp [compact, quote, skipWs_cons (c := '"') (by decide)]
  | arr xs => simp [compact, skipWs_cons (c := '[') (by decide)]
  | obj ms => simp [compact, skipWs_cons (c := '{') (by decide)]

theorem parseValue_of_number {c : Char} (hc : c = '-' ∨ c.isDigit = true) (n : Nat)
    {cs : List Char} (hw : skipWs (c :: cs) = c :: cs) :
    parseValue (n + 1) (c :: cs) = parseNumber (c :: cs) := by
  rw [parseValue, hw]
  split
  all_goals first
    | rfl
    | rename_i h
      simp only [List.cons.injEq] at h
      rw [h.1] at hc
      rcases hc with hc | hc <;> exact absurd hc (by decide)

theorem parseString_quote (cs r : List Char) :
    quote cs ++ r = '"' :: (cs.flatMap escapeChar ++ '"' :: r) := by
  simp [quote]

mutual

theorem parseValue_compact : ∀ (v : Json) (n : Nat) (r : List Char), v.compact.length ≤ n →
    EndsNumber r → parseValue n (v.compact ++ r) = some (v, r)
  | v, 0, r, h, _ => absurd (compact_pos v) (by omega)
  | .null, n + 1, r, _, _ => by
    simp [compact, parseValue, skipWs_cons (c := 'n') (by decide)]
  | .bool true, n + 1, r, _, _ => by
    simp [compact, parseValue, skipWs_cons (c := 't') (by decide)]
  | .bool false, n + 1, r, _, _ => by
    simp [compact, parseValue, skipWs_cons (c := 'f') (by decide)]
  | .num i, n + 1, r, _, hr => by
    have hw := (compact_head (.num i) r).1
    obtain ⟨c, cs, he, hc⟩ := number_eq_cons i
    rw [compact, he, List.cons_append] at hw ⊢
    rw [parseValue_of_number hc n hw, ← List.cons_append, ← he, parseNumber_number i hr]
  | .float f, n + 1, r, _, hr => by
    have hw := (compact_head (.float f) r).1
    obtain ⟨c, cs, he, hc⟩ := floatText_eq_cons f
    rw [compact, he, List.cons_append] at hw ⊢
    rw [parseValue_of_number hc n hw, ← List.cons_append, ← he, parseNumber_floatText f hr]
  | .str s, n + 1, r, _, _ => by
    simp [compact, parseString_quote, parseValue, skipWs_cons (c := '"') (by decide),
      parseString_escape]
  | .arr [], n + 1, r, _, _ => by
    simp [compact, compactElems, parseValue, skipWs_cons (c := '[') (by decide),
      skipWs_cons (c := ']') (by decide)]
  | .arr (x :: xs), n + 1, r, h, _ => by
    simp only [compact, List.length_cons] at h
    have hes := parseElems_compact x xs n r (by omega)
    have hx : ∃ r', compactElems (x :: xs) ++ r = x.compact ++ r' := by
      cases xs <;> simp [compactElems]
    obtain ⟨r', hx⟩ := hx
    simp only [compact, List.cons_append, parseValue, skipWs_cons (c := '[') (by decide)]
    rw [hx, (compact_head x r').1, ← hx, hes]
    split
    · rename_i heq
      exact absurd (hx ▸ heq) ((compact_head x r').2 _)
    · rfl
  | .obj [], n + 1, r, _, _ => by
    simp [compact, compactMembers, parseValue, skipWs_cons (c := '{') (by decide),
      skipWs_cons (c := '}') (by decide)]
  | .obj ((k, v) :: ms), n + 1, r, h, _ => by
    simp only [compact, List.length_cons] at h
    have hms := parseMembers_compact k v ms n r (by omega)
    have hk : ∃ r', compactMembers ((k, v) :: ms) ++ r = '"' :: r' := by
      cases ms <;> simp [compactMembers, parseString_quote]
    obtain ⟨r', hk⟩ := hk
    simp only [compact, List.cons_append, parseValue, skipWs_cons (c := '{') (by decide)]
    rw [hms, hk, skipWs_cons (by decide)]
    rfl

theorem parseElems_compact : ∀ (x : Json) (xs : List Json) (n : Nat) (r : List Char),
    (compactElems (x :: xs)).length ≤ n →
    parseElems n (compactElems (x :: xs) ++ r) = some (x :: xs, r)
  | x, xs, 0, r, h => absurd h (by cases xs <;> simp [compactElems])
  | x, [], n + 1, r, h => by
    simp only [compactElems, List.length_append, List.length_singleton] at h
    have hx := parseValue_compact x n (']' :: r) (by omega)
      (endsNumber_cons (by decide) _)
    simp [compactElems, parseElems, hx, skipWs_cons (c := ']') (by decide)]
  | x, y :: xs, n + 1, r, h => by
    simp only [compactElems, List.length_append, List.length_cons] at h
    have hx := parseValue_compact x n (',' :: (compactElems (y :: xs) ++ r)) (by omega)
      (endsNumber_cons (by decide) _)
    simp [compactElems, parseElems, hx, skipWs_cons (c := ',') (by decide),
      parseElems_compact y xs n r (by omega)]

theorem parseMembers_compact : ∀ (k : String) (v : Json) (ms : List (String × Json)) (n : Nat)
    (r : List Char), (compactMembers ((k, v) :: ms)).length ≤ n →
    parseMembers n (compactMembers ((k, v) :: ms) ++ r) = some ((k, v) :: ms, r)
  | k, v, ms, 0, r, h => absurd h (by cases ms <;> simp [compactMembers])
  | k, v, [], n + 1, r, h => by
    simp only [compactMembers, List.length_append, List.length_cons] at h
    have hv := parseValue_compact v n ('}' :: r) (by omega)
      (endsNumber_cons (by decide) _)
    simp [compactMembers, parseString_quote, parseMembers, skipWs_cons (c := '"') (by decide),
      parseString_escape, skipWs_cons (c := ':') (by decide), hv,
      skipWs_cons (c := '}') (by decide)]
  | k, v, (k', v') :: ms, n + 1, r, h => by
    simp only [compactMembers, List.length_append, List.length_cons] at h
    have hv := parseValue_compact v n (',' :: (compactMembers ((k', v') :: ms) ++ r)) (by omega)
      (endsNumber_cons (by decide) _)
    simp [compactMembers, parseString_quote, parseMembers, skipWs_cons (c := '"') (by decide),
      parseString_escape, skipWs_cons (c := ':') (by decide), hv,
      skipWs_cons (c := ',') (by decide), parseMembers_compact k' v' ms n r (by omega)]

end

/-- Reading a printed value gives that value. -/
theorem parse_compact (v : Json) : parse v.compact = some v := by
  have h := parseValue_compact v v.compact.length [] le_rfl trivial
  rw [List.append_nil] at h
  rw [parse, h]
  rfl

/-- Two values with one text are one value. -/
theorem compact_injective : Function.Injective compact := fun v w h => by
  have := parse_compact v
  rw [h, parse_compact w] at this
  exact (Option.some.inj this).symm

/-! ## One line -/

theorem newline_notMem_quote (cs : List Char) : '\n' ∉ quote cs := by
  simp only [quote, List.cons_append, List.mem_cons, List.mem_append, List.mem_flatMap, not_or, not_exists, not_and]
  refine ⟨by decide, fun c _ => ?_, by decide, List.not_mem_nil⟩
  unfold escapeChar
  split_ifs with h1 h2 h3 h4 h5 h6 h7 h8
  rotate_left 7
  · have hdigit : ∀ n < 16, '\n' ≠ hexDigit n := by decide
    have h1 := hdigit (c.toNat / 16) (by omega)
    have h2 := hdigit (c.toNat % 16) (by omega)
    simp [h1, h2]
  · simpa [eq_comm] using h5
  all_goals decide

theorem newline_notMem_toDigits (n : Nat) : '\n' ∉ Nat.toDigits 10 n := fun h =>
  absurd (isDigit_toDigits h) (by decide)

theorem newline_notMem_number (i : Int) : '\n' ∉ number i := by
  unfold number
  split_ifs
  · simp [newline_notMem_toDigits]
  · exact newline_notMem_toDigits _

theorem newline_notMem_floatText (f : FloatLit) : '\n' ∉ floatText f := by
  have hdigit : ∀ d : Fin 10, ¬Nat.digitChar d = '\n' := by decide
  have hfrac : '\n' ∉ fraction f.frac := by
    cases f.frac with
    | nil => simp [fraction]
    | cons d ds => simp [fraction, hdigit]
  have hexp : '\n' ∉ exponent f.exp := by
    cases f.exp with
    | none => simp [exponent]
    | some e => simp [exponent, newline_notMem_number]
  unfold floatText
  split_ifs <;> simp [newline_notMem_toDigits, hfrac, hexp]

mutual

/-- A compact text is one line. -/
theorem newline_notMem_compact : ∀ v : Json, '\n' ∉ v.compact
  | .null => by simp [compact]
  | .bool true => by simp [compact]
  | .bool false => by simp [compact]
  | .num i => by simpa [compact] using newline_notMem_number i
  | .float f => by simpa [compact] using newline_notMem_floatText f
  | .str s => by simpa [compact] using newline_notMem_quote s
  | .arr xs => by simpa [compact] using newline_notMem_compactElems xs
  | .obj ms => by simpa [compact] using newline_notMem_compactMembers ms

theorem newline_notMem_compactElems : ∀ xs : List Json, '\n' ∉ compactElems xs
  | [] => by simp [compactElems]
  | [x] => by simp [compactElems, newline_notMem_compact x]
  | x :: y :: xs => by
    simp [compactElems, newline_notMem_compact x, newline_notMem_compactElems (y :: xs)]

theorem newline_notMem_compactMembers : ∀ ms : List (String × Json), '\n' ∉ compactMembers ms
  | [] => by simp [compactMembers]
  | [(k, v)] => by simp [compactMembers, newline_notMem_quote, newline_notMem_compact v]
  | (k, v) :: m :: ms => by
    simp [compactMembers, newline_notMem_quote, newline_notMem_compact v,
      newline_notMem_compactMembers (m :: ms)]

end

/-- The last character of an object's text. -/
theorem compact_obj_eq (ms : List (String × Json)) :
    ∃ cs, compact (.obj ms) = '{' :: (cs ++ ['}']) := by
  have : ∀ ms : List (String × Json), ∃ cs, compactMembers ms = cs ++ ['}'] := fun ms => by
    induction ms with
    | nil => exact ⟨[], rfl⟩
    | cons m ms ih =>
      obtain ⟨k, v⟩ := m
      cases ms with
      | nil => exact ⟨_, rfl⟩
      | cons m ms =>
        obtain ⟨cs, h⟩ := ih
        exact ⟨quote k.toList ++ ':' :: v.compact ++ ',' :: cs, by simp [compactMembers, h]⟩
  obtain ⟨cs, h⟩ := this ms
  exact ⟨cs, by rw [compact, h]⟩

end Wires.Json
