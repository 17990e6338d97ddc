import NginxMedia.ApiJson

/-! What was written is read back: every string, every member of an object and every object of an
array, whatever bytes they hold. -/
namespace ApiJson

open ByteString

variable {cap depth fuel : ℕ} {container string : Bool} {value rest : Str}

theorem hexValue_hexDigit : ∀ n < 16, hexValue (hexDigit n) = some n := by
  decide

theorem hexDigit_plain : ∀ n < 16, hexDigit n ≠ 34 ∧ hexDigit n ≠ 92 := by
  decide

theorem parseStringLoop_quoteByte (c : UInt8) (rest : Str) :
    parseStringLoop (fuel + 1) cap (quoteByte c ++ rest) =
      if cap < 1 then none
      else (parseStringLoop fuel (cap - 1) rest).map fun (s, next) => (c :: s, next) := by
  unfold quoteByte
  split
  · subst c; rfl
  split
  · subst c; rfl
  split
  · subst c; rfl
  split
  · subst c; rfl
  split
  · subst c; rfl
  split
  · subst c; rfl
  split
  · subst c; rfl
  split
  · rename_i hlt
    have hnat : c.toNat < 32 := hlt
    have hhigh := hexValue_hexDigit (c.toNat / 16) (by omega)
    have hlow := hexValue_hexDigit (c.toNat % 16) (by omega)
    have hzero : hexValue 48 = some 0 := rfl
    have hcode : ((0 * 16 + 0) * 16 + c.toNat / 16) * 16 + c.toNat % 16 = c.toNat := by omega
    have hfour : hexFour (48 :: 48 :: hexDigit (c.toNat / 16) :: hexDigit (c.toNat % 16) :: rest) =
        some (c.toNat, rest) := by
      simp only [hexFour, hzero, hhigh, hlow, hcode]
    have hescape : escape (117 :: 48 :: 48 :: hexDigit (c.toNat / 16) ::
        hexDigit (c.toNat % 16) :: rest) = some (c.toNat, rest) := by
      have hhighSurrogate : ¬(0xD800 ≤ c.toNat ∧ c.toNat ≤ 0xDBFF) := by omega
      have hlowSurrogate : ¬(0xDC00 ≤ c.toNat ∧ c.toNat ≤ 0xDFFF) := by omega
      simp [escape, hfour, hhighSurrogate, hlowSurrogate]
    have hutf8 : utf8 c.toNat = [c] := by
      rw [utf8, if_pos (by omega), UInt8.ofNat_toNat]
    simp only [List.cons_append, List.nil_append, parseStringLoop, hescape, hutf8]
    simp
  · rename_i h34 h92 _ _ _ _ _ hlt
    simp only [List.cons_append, List.nil_append, parseStringLoop]
    simp [h34, h92, hlt]

theorem quoteByte_ne_nil (c : UInt8) : 0 < (quoteByte c).length := by
  unfold quoteByte
  split_ifs <;> simp

theorem length_le_flatMap_quoteByte (value : Str) :
    value.length ≤ (value.flatMap quoteByte).length := by
  induction value with
  | nil => simp
  | cons c value ih =>
    have := quoteByte_ne_nil c
    simp only [List.flatMap_cons, List.length_append, List.length_cons]
    omega

theorem parseString_quoted (hcap : value.length ≤ cap) :
    parseString cap (value.flatMap quoteByte ++ 34 :: rest) = some (value, rest) := by
  have hloop : ∀ fuel > value.length,
      parseStringLoop fuel cap (value.flatMap quoteByte ++ 34 :: rest) = some (value, rest) := by
    induction value generalizing cap with
    | nil =>
      intro fuel hfuel
      obtain ⟨n, rfl⟩ := Nat.exists_eq_add_of_lt hfuel
      simp [parseStringLoop]
    | cons c value ih =>
      intro fuel hfuel
      obtain ⟨n, rfl⟩ := Nat.exists_eq_add_of_lt hfuel
      obtain ⟨m, rfl⟩ := Nat.exists_eq_add_of_le hcap
      have hnext : parseStringLoop (value.length + 1 + n) (value.length + m)
          (value.flatMap quoteByte ++ 34 :: rest) = some (value, rest) :=
        ih (by omega) _ (by omega)
      rw [List.flatMap_cons, List.append_assoc]
      have hsplit : (c :: value).length + n + 1 = (value.length + 1 + n) + 1 := by
        rw [List.length_cons]
      have hroom : (c :: value).length + m = (value.length + m) + 1 := by
        rw [List.length_cons]
        omega
      rw [hsplit, hroom, parseStringLoop_quoteByte, if_neg (by omega), Nat.add_sub_cancel, hnext]
      rfl
  refine hloop _ ?_
  have := length_le_flatMap_quoteByte value
  rw [List.length_append, List.length_cons]
  omega

theorem valueScan_plain {c : UInt8} (h34 : c ≠ 34) (h92 : c ≠ 92) (rest : Str) :
    valueScan container string depth true (c :: rest) =
      valueScan container string depth true rest := by
  rw [valueScan.eq_def]
  simp [h34, h92]

theorem valueScan_escaped (c : UInt8) (rest : Str) :
    valueScan container string depth true (92 :: c :: rest) =
      valueScan container string depth true rest := by
  rw [valueScan.eq_def]
  simp

theorem valueScan_close (rest : Str) :
    valueScan container string depth true (34 :: rest) =
      if string = true ∧ depth = 0 then some rest
      else valueScan container string depth false rest := by
  rw [valueScan.eq_def]
  simp

theorem valueScan_quoteByte (c : UInt8) (rest : Str) :
    valueScan container string depth true (quoteByte c ++ rest) =
      valueScan container string depth true rest := by
  unfold quoteByte
  split
  · exact valueScan_escaped _ _
  split
  · exact valueScan_escaped _ _
  split
  · exact valueScan_escaped _ _
  split
  · exact valueScan_escaped _ _
  split
  · exact valueScan_escaped _ _
  split
  · exact valueScan_escaped _ _
  split
  · exact valueScan_escaped _ _
  split
  · rename_i hlt
    have hnat : c.toNat < 32 := hlt
    obtain ⟨h1, h2⟩ := hexDigit_plain (c.toNat / 16) (by omega)
    obtain ⟨h3, h4⟩ := hexDigit_plain (c.toNat % 16) (by omega)
    simp only [List.cons_append, List.nil_append]
    rw [valueScan_escaped, valueScan_plain (by decide) (by decide),
      valueScan_plain (by decide) (by decide), valueScan_plain h1 h2, valueScan_plain h3 h4]
  · rename_i h34 h92 _ _ _ _ _ _
    exact valueScan_plain h34 h92 rest

theorem valueScan_quoted (value rest : Str) :
    valueScan container string depth true (value.flatMap quoteByte ++ 34 :: rest) =
      if string = true ∧ depth = 0 then some rest
      else valueScan container string depth false rest := by
  induction value with
  | nil => exact valueScan_close rest
  | cons c value ih => rw [List.flatMap_cons, List.append_assoc, valueScan_quoteByte, ih]

def Neutral (t : Str) : Prop := ∀ (container string : Bool) (depth : ℕ) (rest : Str),
  valueScan container string (depth + 1) false (t ++ rest) =
    valueScan container string (depth + 1) false rest

theorem Neutral.append {a b : Str} (ha : Neutral a) (hb : Neutral b) : Neutral (a ++ b) := by
  intro container string depth rest
  rw [List.append_assoc, ha, hb]

/-- A byte that means nothing to a scan inside brackets. -/
def Inert (c : UInt8) : Prop := c ≠ 34 ∧ c ≠ 123 ∧ c ≠ 91 ∧ c ≠ 125 ∧ c ≠ 93

instance (c : UInt8) : Decidable (Inert c) := inferInstanceAs (Decidable (_ ∧ _))

theorem valueScan_inert {c : UInt8} (hc : Inert c) (h44 : c ≠ 44 ∨ depth ≠ 0) (rest : Str) :
    valueScan container string depth false (c :: rest) =
      valueScan container string depth false rest := by
  obtain ⟨h34, h123, h91, h125, h93⟩ := hc
  rw [valueScan.eq_def]
  rcases h44 with h44 | h44 <;> simp [h34, h123, h91, h125, h93, h44]

theorem neutral_nil : Neutral [] := fun _ _ _ _ => rfl

theorem Neutral.cons {c : UInt8} {t : Str} (hc : Inert c) (ht : Neutral t) : Neutral (c :: t) := by
  intro container string depth rest
  rw [List.cons_append, valueScan_inert hc (Or.inr (Nat.succ_ne_zero depth)), ht]

theorem neutral_inert {t : Str} (ht : ∀ c ∈ t, Inert c) : Neutral t := by
  induction t with
  | nil => exact neutral_nil
  | cons c t ih =>
    exact Neutral.cons (ht c List.mem_cons_self) (ih fun d hd => ht d (List.mem_cons_of_mem c hd))

theorem neutral_jsonString (value : Str) : Neutral (jsonString value) := by
  intro container string depth rest
  have hopen : valueScan container string (depth + 1) false
      (34 :: (value.flatMap quoteByte ++ 34 :: rest)) =
      valueScan container string (depth + 1) true (value.flatMap quoteByte ++ 34 :: rest) := by
    rw [valueScan.eq_def]
    simp
  have htext : jsonString value ++ rest = 34 :: (value.flatMap quoteByte ++ 34 :: rest) := by
    simp [jsonString]
  rw [htext, hopen, valueScan_quoted, if_neg (by omega)]

theorem valueScan_open {c : UInt8} (hc : c = 123 ∨ c = 91) (rest : Str) :
    valueScan container string depth false (c :: rest) =
      valueScan container string (depth + 1) false rest := by
  rw [valueScan.eq_def]
  rcases hc with rfl | rfl <;> simp

theorem valueScan_shut {c : UInt8} (hc : c = 125 ∨ c = 93) (rest : Str) :
    valueScan container string (depth + 1) false (c :: rest) =
      if depth = 0 ∧ container = true then some rest
      else valueScan container string depth false rest := by
  rw [valueScan.eq_def]
  rcases hc with rfl | rfl <;> simp

theorem Neutral.bracketed {t : Str} (ht : Neutral t) {o c : UInt8} (ho : o = 123 ∨ o = 91)
    (hc : c = 125 ∨ c = 93) : Neutral (o :: (t ++ [c])) := by
  intro container string depth rest
  have htext : o :: (t ++ [c]) ++ rest = o :: (t ++ c :: rest) := by simp
  rw [htext, valueScan_open ho, ht, valueScan_shut hc, if_neg (by omega)]

theorem inert_digit : ∀ d < 10, Inert (UInt8.ofNat (48 + d)) ∧ UInt8.ofNat (48 + d) ≠ 44 ∧
    space (UInt8.ofNat (48 + d)) = false := by
  decide

theorem inert_decimal (n : ℕ) : ∀ c ∈ decimal n, Inert c ∧ c ≠ 44 ∧ space c = false := by
  intro c hc
  obtain ⟨d, hd, rfl⟩ := mem_decimal hc
  exact inert_digit d hd

/-- The words and numbers, which no quote or bracket opens. -/
def Bare (t : Str) : Prop := t ≠ [] ∧ ∀ c ∈ t, Inert c ∧ c ≠ 44 ∧ space c = false

instance (t : Str) : Decidable (Bare t) := inferInstanceAs (Decidable (_ ∧ _))

theorem bare_decimal (n : ℕ) : Bare (decimal n) := ⟨decimal_ne_nil n, inert_decimal n⟩

theorem bare_words : Bare (ascii "true") ∧ Bare (ascii "false") ∧ Bare (ascii "null") := by
  decide +kernel

mutual

theorem neutral_text : ∀ v : Value, Neutral v.text
  | .string s => by
    rw [Value.text]
    exact neutral_jsonString s
  | .number n => by
    rw [Value.text]
    exact neutral_inert fun c hc => (inert_decimal n c hc).1
  | .flag true => by
    rw [Value.text]
    exact neutral_inert fun c hc => (bare_words.1.2 c hc).1
  | .flag false => by
    rw [Value.text]
    exact neutral_inert fun c hc => (bare_words.2.1.2 c hc).1
  | .null => by
    rw [Value.text]
    exact neutral_inert fun c hc => (bare_words.2.2.2 c hc).1
  | .array [] => by
    rw [Value.text]
    exact neutral_nil.bracketed (Or.inr rfl) (Or.inr rfl)
  | .array (v :: vs) => by
    rw [Value.text, ← List.append_assoc]
    exact ((neutral_text v).append (neutral_laterElements vs)).bracketed (Or.inr rfl) (Or.inr rfl)
  | .object [] => by
    rw [Value.text]
    exact neutral_nil.bracketed (Or.inl rfl) (Or.inl rfl)
  | .object ((k, v) :: ms) => by
    have htext : (Value.object ((k, v) :: ms)).text =
        123 :: ((jsonString k ++ 58 :: (v.text ++ laterMembers ms)) ++ [125]) := by
      rw [Value.text]
      simp
    rw [htext]
    exact ((neutral_jsonString k).append (Neutral.cons (by decide)
      ((neutral_text v).append (neutral_laterMembers ms)))).bracketed (Or.inl rfl) (Or.inl rfl)

theorem neutral_laterElements : ∀ vs : List Value, Neutral (laterElements vs)
  | [] => by
    rw [laterElements]
    exact neutral_nil
  | v :: vs => by
    rw [laterElements]
    exact Neutral.cons (by decide) ((neutral_text v).append (neutral_laterElements vs))

theorem neutral_laterMembers : ∀ ms : List (Str × Value), Neutral (laterMembers ms)
  | [] => by
    rw [laterMembers]
    exact neutral_nil
  | (k, v) :: ms => by
    rw [laterMembers]
    exact Neutral.cons (by decide) ((neutral_jsonString k).append
      (Neutral.cons (by decide) ((neutral_text v).append (neutral_laterMembers ms))))

end

theorem text_shape (v : Value) :
    (∃ s, v = .string s) ∨ ((∀ s, v ≠ .string s) ∧ Bare v.text) ∨
      ((∀ s, v ≠ .string s) ∧ ∃ o c t, v.text = o :: (t ++ [c]) ∧ Neutral t ∧
        (o = 123 ∨ o = 91) ∧ (c = 125 ∨ c = 93)) := by
  match v with
  | .string s => exact Or.inl ⟨s, rfl⟩
  | .number n =>
    refine Or.inr (Or.inl ⟨by simp, ?_⟩)
    rw [Value.text]
    exact bare_decimal n
  | .flag true =>
    refine Or.inr (Or.inl ⟨by simp, ?_⟩)
    rw [Value.text]
    exact bare_words.1
  | .flag false =>
    refine Or.inr (Or.inl ⟨by simp, ?_⟩)
    rw [Value.text]
    exact bare_words.2.1
  | .null =>
    refine Or.inr (Or.inl ⟨by simp, ?_⟩)
    rw [Value.text]
    exact bare_words.2.2
  | .array [] =>
    refine Or.inr (Or.inr ⟨by simp, 91, 93, [], ?_, neutral_nil, Or.inr rfl, Or.inr rfl⟩)
    rw [Value.text]
    rfl
  | .array (v :: vs) =>
    refine Or.inr (Or.inr ⟨by simp, 91, 93, v.text ++ laterElements vs, ?_,
      (neutral_text v).append (neutral_laterElements vs), Or.inr rfl, Or.inr rfl⟩)
    rw [Value.text, List.append_assoc]
  | .object [] =>
    refine Or.inr (Or.inr ⟨by simp, 123, 125, [], ?_, neutral_nil, Or.inl rfl, Or.inl rfl⟩)
    rw [Value.text]
    rfl
  | .object ((k, v) :: ms) =>
    refine Or.inr (Or.inr ⟨by simp, 123, 125, jsonString k ++ 58 :: (v.text ++ laterMembers ms),
      ?_, ?_, Or.inl rfl, Or.inl rfl⟩)
    · rw [Value.text]
      simp
    · exact (neutral_jsonString k).append (Neutral.cons (by decide)
        ((neutral_text v).append (neutral_laterMembers ms)))

/-- What may stand behind a value. -/
def Stop (c : UInt8) : Prop := c = 44 ∨ c = 125 ∨ c = 93

theorem valueScan_bare {t : Str} (ht : ∀ c ∈ t, Inert c ∧ c ≠ 44) {c : UInt8} (hc : Stop c)
    (rest : Str) :
    valueScan false false 0 false (t ++ c :: rest) = some (c :: rest) := by
  induction t with
  | nil =>
    rw [List.nil_append, valueScan.eq_def]
    rcases hc with rfl | rfl | rfl <;> simp
  | cons b t ih =>
    obtain ⟨hb, h44⟩ := ht b List.mem_cons_self
    rw [List.cons_append, valueScan_inert hb (Or.inl h44),
      ih fun d hd => ht d (List.mem_cons_of_mem b hd)]

theorem valueEnd_text (v : Value) {c : UInt8} (hc : Stop c) (rest : Str) :
    valueEnd (v.text ++ c :: rest) = some (c :: rest) := by
  rcases text_shape v with ⟨s, rfl⟩ | ⟨-, hne, hbare⟩ | ⟨-, o, d, t, htext, ht, ho, hd⟩
  · have htext : (Value.string s).text ++ c :: rest =
        34 :: (s.flatMap quoteByte ++ 34 :: (c :: rest)) := by
      rw [Value.text, jsonString]
      simp
    have hopen : valueScan false true 0 false (34 :: (s.flatMap quoteByte ++ 34 :: (c :: rest))) =
        valueScan false true 0 true (s.flatMap quoteByte ++ 34 :: (c :: rest)) := by
      rw [valueScan.eq_def]
      simp
    rw [htext, valueEnd]
    simp only [List.head?_cons, Option.some_beq_some]
    exact hopen.trans ((valueScan_quoted s _).trans (if_pos ⟨rfl, rfl⟩))
  · obtain ⟨b, t, htext⟩ := List.exists_cons_of_ne_nil hne
    obtain ⟨⟨h34, h123, h91, -, -⟩, -, -⟩ := hbare b (htext ▸ List.mem_cons_self)
    have hhead : (v.text ++ c :: rest).head? = some b := by rw [htext]; rfl
    have h1 : (some b == some (123 : UInt8)) = false := by simpa using h123
    have h2 : (some b == some (91 : UInt8)) = false := by simpa using h91
    have h3 : (some b == some (34 : UInt8)) = false := by simpa using h34
    rw [valueEnd, hhead, h1, h2, h3]
    exact valueScan_bare (fun d hd => ⟨(hbare d hd).1, (hbare d hd).2.1⟩) hc rest
  · have hhead : (v.text ++ c :: rest).head? = some o := by rw [htext]; rfl
    have hcontainer : (some o == some (123 : UInt8) || some o == some 91) = true := by
      rcases ho with rfl | rfl <;> rfl
    have hsplit : v.text ++ c :: rest = o :: (t ++ d :: (c :: rest)) := by rw [htext]; simp
    rw [valueEnd, hhead, hcontainer, hsplit, valueScan_open ho, ht, valueScan_shut hd,
      if_pos ⟨rfl, rfl⟩]

theorem before_append (t next : Str) : before (t ++ next) next = t := by
  rw [before, List.length_append, Nat.add_sub_cancel, List.take_left']
  rfl

theorem trimmed_of_last {t : Str} {c : UInt8} (hc : space c = false) :
    trimmed (t ++ [c]) = t ++ [c] := by
  simp [trimmed, hc]

theorem trimmed_text {v : Value} (hv : ∀ s, v ≠ .string s) : trimmed v.text = v.text := by
  rcases text_shape v with ⟨s, rfl⟩ | ⟨-, hne, hbare⟩ | ⟨-, o, d, t, htext, -, -, hd⟩
  · exact absurd rfl (hv s)
  · obtain ⟨t, b, htext⟩ := List.eq_nil_or_concat v.text |>.resolve_left hne
    rw [List.concat_eq_append] at htext
    rw [htext]
    exact trimmed_of_last (hbare b (htext ▸ List.mem_append_right _ List.mem_cons_self)).2.2
  · have hspace : space d = false := by rcases hd with rfl | rfl <;> rfl
    rw [htext, ← List.cons_append]
    exact trimmed_of_last hspace

theorem text_head (v : Value) :
    ∃ c t, v.text = c :: t ∧ space c = false ∧ ((∀ s, v ≠ .string s) → c ≠ 34) := by
  rcases text_shape v with ⟨s, rfl⟩ | ⟨hv, hne, hbare⟩ | ⟨hv, o, d, t, htext, -, ho, -⟩
  · refine ⟨34, s.flatMap quoteByte ++ [34], ?_, rfl, fun h => absurd rfl (h s)⟩
    rw [Value.text, jsonString]
  · obtain ⟨b, t, htext⟩ := List.exists_cons_of_ne_nil hne
    obtain ⟨⟨h34, -⟩, -, hspace⟩ := hbare b (htext ▸ List.mem_cons_self)
    exact ⟨b, t, htext, hspace, fun _ => h34⟩
  · refine ⟨o, t ++ [d], htext, ?_, fun _ => ?_⟩
    · rcases ho with rfl | rfl <;> rfl
    · rcases ho with rfl | rfl <;> decide

/-- What a look-up of the member gives. -/
def Value.found (pool : Bool) : Value → Field
  | .string s => if pool then .ok s else .declined
  | v => .ok v.text

theorem found_of_not_string {v : Value} (pool : Bool) (hv : ∀ s, v ≠ .string s) :
    v.found pool = .ok v.text := by
  cases v with
  | string s => exact absurd rfl (hv s)
  | number _ => rfl
  | flag _ => rfl
  | null => rfl
  | array _ => rfl
  | object _ => rfl

/-- One round over a member: `o` stands before it and `c` behind it. -/
theorem jsonFieldLoop_member (pool : Bool) (key : Str) {o c : UInt8} (ho : o = 123 ∨ o = 44)
    (hc : Stop c) {k : Str} (hk : k.length ≤ 64) (v : Value) (rest : Str) :
    jsonFieldLoop pool key (fuel + 1) (o :: (jsonString k ++ 58 :: (v.text ++ c :: rest))) =
      if k ≠ key then jsonFieldLoop pool key fuel (c :: rest) else v.found pool := by
  obtain ⟨b, t, htext, hspace, hquote⟩ := text_head v
  have hskip : (o :: (jsonString k ++ 58 :: (v.text ++ c :: rest))).dropWhile
      (fun c => space c || c == 123 || c == 44) =
        34 :: (k.flatMap quoteByte ++ 34 :: (58 :: (v.text ++ c :: rest))) := by
    rcases ho with rfl | rfl <;> simp [jsonString, space]
  have hkey : parseString 64 (k.flatMap quoteByte ++ 34 :: (58 :: (v.text ++ c :: rest))) =
      some (k, 58 :: (v.text ++ c :: rest)) := parseString_quoted hk
  have hcolon : (58 :: (v.text ++ c :: rest)).dropWhile space = 58 :: (v.text ++ c :: rest) := rfl
  have hstart : (v.text ++ c :: rest).dropWhile space = v.text ++ c :: rest := by
    rw [htext, List.cons_append, List.dropWhile_cons, hspace]
    rfl
  have hne : v.text ++ c :: rest ≠ [] := by simp
  rw [jsonFieldLoop, hskip]
  simp only [hkey, hcolon, hstart, hne, valueEnd_text v hc rest, before_append, ne_eq,
    not_true_eq_false, if_false]
  by_cases hkk : k = key
  · rw [if_neg (not_not.mpr hkk), if_neg (not_not.mpr hkk)]
    by_cases hv : ∃ s, v = .string s
    · obtain ⟨s, rfl⟩ := hv
      have hstring : (Value.string s).text = 34 :: (s.flatMap quoteByte ++ [34]) := by
        rw [Value.text, jsonString]
      have hroom : s.length ≤ (34 :: (s.flatMap quoteByte ++ [34])).length - 2 := by
        have := length_le_flatMap_quoteByte s
        simp only [List.length_cons, List.length_append, List.length_nil]
        omega
      have hparse : parseString ((34 :: (s.flatMap quoteByte ++ [34])).length - 2)
          (s.flatMap quoteByte ++ [34]) = some (s, []) := parseString_quoted hroom
      rw [hstring]
      simp only [List.cons_append, List.head?_cons, if_true, List.drop_succ_cons, List.drop_zero,
        hparse]
      cases pool <;> rfl
    · have hstring : ∀ s, v ≠ .string s := not_exists.mp hv
      have hb : ¬ (v.text ++ c :: rest).head? = some 34 := by
        rw [htext]
        simpa using hquote hstring
      rw [if_neg hb, found_of_not_string pool hstring, trimmed_text hstring]
  · rw [if_pos hkk, if_pos hkk]

theorem jsonFieldLoop_end (pool : Bool) (key : Str) (rest : Str) :
    jsonFieldLoop pool key fuel (125 :: rest) = .declined := by
  cases fuel with
  | zero => rfl
  | succ fuel =>
    rw [jsonFieldLoop]
    simp [space]

theorem laterMembers_append (ms : List (Str × Value)) :
    ∃ c rest, laterMembers ms ++ [125] = c :: rest ∧ Stop c := by
  cases ms with
  | nil => exact ⟨125, [], rfl, Or.inr (Or.inl rfl)⟩
  | cons m ms =>
    obtain ⟨k, v⟩ := m
    rw [laterMembers]
    exact ⟨44, _, rfl, Or.inl rfl⟩

theorem jsonFieldLoop_members (pool : Bool) (key : Str) {ms : List (Str × Value)}
    (hms : ∀ m ∈ ms, m.1.length ≤ 64) (hfuel : ms.length ≤ fuel) :
    jsonFieldLoop pool key fuel (laterMembers ms ++ [125]) =
      ((ms.lookup key).map (Value.found pool)).getD .declined := by
  induction ms generalizing fuel with
  | nil =>
    rw [laterMembers, List.nil_append, jsonFieldLoop_end]
    rfl
  | cons m ms ih =>
    obtain ⟨k, v⟩ := m
    obtain ⟨n, rfl⟩ := Nat.exists_eq_add_of_le hfuel
    obtain ⟨c, rest, hrest, hc⟩ := laterMembers_append ms
    have hloop : jsonFieldLoop pool key (ms.length + n) (laterMembers ms ++ [125]) =
        ((ms.lookup key).map (Value.found pool)).getD .declined :=
      ih (fun m hm => hms m (List.mem_cons_of_mem _ hm)) (Nat.le_add_right _ _)
    have htext : laterMembers ((k, v) :: ms) ++ [125] =
        44 :: (jsonString k ++ 58 :: (v.text ++ c :: rest)) := by
      rw [laterMembers, ← hrest]
      simp
    have hsucc : ((k, v) :: ms).length + n = ms.length + n + 1 := by
      rw [List.length_cons]
      omega
    rw [htext, hsucc, jsonFieldLoop_member pool key (Or.inr rfl) hc
      (hms (k, v) List.mem_cons_self) v rest, ← hrest, hloop, List.lookup_cons]
    by_cases hk : k = key
    · subst hk
      simp
    · have hkey : (key == k) = false := by simpa using Ne.symm hk
      rw [if_pos hk, hkey]

theorem length_laterMembers (ms : List (Str × Value)) : ms.length ≤ (laterMembers ms).length := by
  induction ms with
  | nil => simp
  | cons m ms ih =>
    obtain ⟨k, v⟩ := m
    rw [laterMembers]
    simp only [List.length_cons, List.length_append]
    omega

theorem jsonField_object (pool : Bool) {key : Str} (hkey : key.length < 64)
    {ms : List (Str × Value)} (hms : ∀ m ∈ ms, m.1.length ≤ 64) :
    jsonField pool (Value.object ms).text key =
      ((ms.lookup key).map (Value.found pool)).getD .declined := by
  rw [jsonField, if_neg (by omega)]
  match ms with
  | [] =>
    rw [Value.text]
    rfl
  | (k, v) :: ms =>
    obtain ⟨c, rest, hrest, hc⟩ := laterMembers_append ms
    have htext : (Value.object ((k, v) :: ms)).text =
        123 :: (jsonString k ++ 58 :: (v.text ++ c :: rest)) := by
      rw [Value.text, ← hrest]
    have hlength : ms.length + 1 ≤ (Value.object ((k, v) :: ms)).text.length := by
      have := length_laterMembers ms
      rw [htext, ← hrest]
      simp only [List.length_cons, List.length_append]
      omega
    obtain ⟨n, hn⟩ := Nat.exists_eq_add_of_le hlength
    rw [Nat.add_right_comm] at hn
    have hloop : jsonFieldLoop pool key (ms.length + n) (laterMembers ms ++ [125]) =
        ((ms.lookup key).map (Value.found pool)).getD .declined :=
      jsonFieldLoop_members pool key (fun m hm => hms m (List.mem_cons_of_mem _ hm))
        (Nat.le_add_right _ _)
    rw [hn, htext, jsonFieldLoop_member pool key (Or.inl rfl) hc
      (hms (k, v) List.mem_cons_self) v rest, ← hrest, hloop, List.lookup_cons]
    by_cases hk : k = key
    · subst hk
      simp
    · have hkey : (key == k) = false := by simpa using Ne.symm hk
      rw [if_pos hk, hkey]

def elements : List Value → Str
  | [] => []
  | v :: vs => v.text ++ laterElements vs

theorem text_array (vs : List Value) : (Value.array vs).text = 91 :: (elements vs ++ [93]) := by
  cases vs with
  | nil =>
    rw [Value.text]
    rfl
  | cons v vs => rw [Value.text, elements, List.append_assoc]

theorem jsonArray_array {key : Str} (hkey : key.length < 64) {ms : List (Str × Value)}
    (hms : ∀ m ∈ ms, m.1.length ≤ 64) {vs : List Value} (hvs : ms.lookup key = some (.array vs)) :
    jsonArray (Value.object ms).text key = some (elements vs) := by
  rw [jsonArray, jsonField_object false hkey hms, hvs]
  have hlast : (91 :: (elements vs ++ [93])).getLast? = some 93 := by
    rw [← List.cons_append, List.getLast?_concat]
  simp only [Option.map_some, Option.getD_some, Value.found, text_array, hlast, List.head?_cons,
    List.drop_succ_cons, List.drop_zero, List.dropLast_concat]
  exact if_pos ⟨by simp, trivial, trivial⟩

theorem valueEnd_object (ms : List (Str × Value)) (rest : Str) :
    valueEnd ((Value.object ms).text ++ rest) = some rest := by
  have hbracketed : ∃ t, (Value.object ms).text = 123 :: (t ++ [125]) ∧ Neutral t := by
    match ms with
    | [] =>
      refine ⟨[], ?_, neutral_nil⟩
      rw [Value.text]
      rfl
    | (k, v) :: ms =>
      refine ⟨jsonString k ++ 58 :: (v.text ++ laterMembers ms), ?_,
        (neutral_jsonString k).append (Neutral.cons (by decide)
          ((neutral_text v).append (neutral_laterMembers ms)))⟩
      rw [Value.text]
      simp
  obtain ⟨t, htext, ht⟩ := hbracketed
  have hsplit : (Value.object ms).text ++ rest = 123 :: (t ++ 125 :: rest) := by
    rw [htext]
    simp
  rw [hsplit, valueEnd]
  simp only [List.head?_cons]
  exact (valueScan_open (Or.inl rfl) _).trans
    ((ht _ _ 0 _).trans ((valueScan_shut (Or.inl rfl) rest).trans (if_pos ⟨rfl, rfl⟩)))

theorem jsonObject_object {o : Str} (ho : o = [] ∨ o = [44]) (ms : List (Str × Value))
    (rest : Str) :
    jsonObject (o ++ ((Value.object ms).text ++ rest)) =
      .object (Value.object ms).text rest := by
  obtain ⟨t, htext⟩ : ∃ t, (Value.object ms).text ++ rest = 123 :: t := by
    match ms with
    | [] =>
      rw [Value.text]
      exact ⟨_, rfl⟩
    | (k, v) :: ms =>
      rw [Value.text]
      exact ⟨_, rfl⟩
  have hskip : (o ++ ((Value.object ms).text ++ rest)).dropWhile
      (fun c => space c || c == 44) = (Value.object ms).text ++ rest := by
    rw [htext]
    rcases ho with rfl | rfl <;> rfl
  have hhead : ((Value.object ms).text ++ rest).head? = some 123 := by rw [htext]; rfl
  have hne : (Value.object ms).text ++ rest ≠ [] := by rw [htext]; exact List.cons_ne_nil _ _
  rw [jsonObject]
  simp only [hskip, hhead, hne, valueEnd_object, before_append, ne_eq, not_true_eq_false, if_false]

theorem jsonObjectsLoop_later {objects : List (List (Str × Value))}
    (hfuel : objects.length < fuel) :
    jsonObjectsLoop fuel (laterElements (objects.map .object)) =
      (objects.map fun ms => (Value.object ms).text, true) := by
  induction objects generalizing fuel with
  | nil =>
    obtain ⟨n, rfl⟩ := Nat.exists_eq_add_of_lt hfuel
    rfl
  | cons ms objects ih =>
    obtain ⟨n, rfl⟩ := Nat.exists_eq_add_of_lt hfuel
    have hnext : jsonObjectsLoop (objects.length + n + 1) (laterElements (objects.map .object)) =
        (objects.map fun ms => (Value.object ms).text, true) := ih (by omega)
    have hsucc : (ms :: objects).length + n + 1 = objects.length + n + 1 + 1 := by
      rw [List.length_cons]
      omega
    rw [hsucc, List.map_cons, laterElements, jsonObjectsLoop]
    have hround := jsonObject_object (Or.inr rfl) ms (laterElements (objects.map .object))
    rw [List.cons_append, List.nil_append] at hround
    rw [hround]
    simp only [hnext, List.map_cons]

theorem length_laterElements (objects : List (List (Str × Value))) :
    objects.length ≤ (laterElements (objects.map .object)).length := by
  induction objects with
  | nil => simp
  | cons ms objects ih =>
    rw [List.map_cons, laterElements]
    simp only [List.length_cons, List.length_append]
    omega

theorem jsonObjects_elements (objects : List (List (Str × Value))) :
    jsonObjects (elements (objects.map .object)) =
      (objects.map fun ms => (Value.object ms).text, true) := by
  cases objects with
  | nil => rfl
  | cons ms objects =>
    have hround := jsonObject_object (Or.inl rfl) ms (laterElements (objects.map .object))
    rw [List.nil_append] at hround
    have hfuel : objects.length < (elements ((ms :: objects).map .object)).length := by
      have hlength := length_laterElements objects
      obtain ⟨c, t, htext, -⟩ := text_head (.object ms)
      rw [List.map_cons, elements, htext]
      simp only [List.length_append, List.length_cons]
      omega
    have hloop := jsonObjectsLoop_later hfuel
    rw [jsonObjects, jsonObjectsLoop]
    rw [List.map_cons, elements] at *
    rw [hround]
    simp only [hloop, List.map_cons]

end ApiJson
