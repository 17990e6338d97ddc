import NginxMedia.ApiJsonWalk

/-! Objects that others wrote: blanks between any two tokens, members in any order and more than
once, keys of any length. A look-up is followed from member to member over the text. -/
namespace ApiJson

open ByteString

/-- The blanks that may stand between two tokens. -/
abbrev Blank := {w : Str // ∀ c ∈ w, space c = true}

structure Layout where
  before : Blank
  after : Blank
  ahead : Blank
  behind : Blank

inductive Json where
  | string (s : Str)
  | integer (n : ℤ)
  | flag (b : Bool)
  | null
  | array (gap : Blank) (items : List ((Blank × Blank) × Json))
  | object (gap : Blank) (members : List (Layout × Str × Json))

abbrev Member := Layout × Str × Json

def signed (n : ℤ) : Str := if n < 0 then 45 :: decimal n.natAbs else decimal n.natAbs

mutual

def Json.text : Json → Str
  | .string s => jsonString s
  | .integer n => signed n
  | .flag b => if b then ascii "true" else ascii "false"
  | .null => ascii "null"
  | .array gap [] => 91 :: (gap.val ++ [93])
  | .array _ (((w, w'), v) :: items) =>
    91 :: (w.val ++ (v.text ++ (w'.val ++ (nextItems items ++ [93]))))
  | .object gap [] => 123 :: (gap.val ++ [125])
  | .object _ ((l, k, v) :: members) =>
    123 :: (l.before.val ++ (jsonString k ++ (l.after.val ++ 58 ::
      (l.ahead.val ++ (v.text ++ (l.behind.val ++ (nextMembers members ++ [125])))))))

def nextItems : List ((Blank × Blank) × Json) → Str
  | [] => []
  | ((w, w'), v) :: items => 44 :: (w.val ++ (v.text ++ (w'.val ++ nextItems items)))

def nextMembers : List (Layout × Str × Json) → Str
  | [] => []
  | (l, k, v) :: members =>
    44 :: (l.before.val ++ (jsonString k ++ (l.after.val ++ 58 ::
      (l.ahead.val ++ (v.text ++ (l.behind.val ++ nextMembers members))))))

end

theorem inert_of_space {c : UInt8} (h : space c = true) : Inert c ∧ c ≠ 44 ∧ c ≠ 92 := by
  simp only [space, Bool.or_eq_true, beq_iff_eq] at h
  rcases h with ((rfl | rfl) | rfl) | rfl <;> decide

theorem neutral_blank (w : Blank) : Neutral w.val :=
  neutral_inert fun c hc => (inert_of_space (w.property c hc)).1

theorem bare_signed (n : ℤ) : Bare (signed n) := by
  unfold signed
  split_ifs
  · refine ⟨List.cons_ne_nil _ _, fun c hc => ?_⟩
    rcases List.mem_cons.mp hc with rfl | hc
    · decide
    · exact inert_decimal n.natAbs c hc
  · exact bare_decimal n.natAbs

theorem neutral_bare {t : Str} (ht : Bare t) : Neutral t :=
  neutral_inert fun c hc => (ht.2 c hc).1

theorem neutral_member (l : Layout) (k : Str) {t rest : Str} (ht : Neutral t)
    (hrest : Neutral rest) : Neutral (l.before.val ++ (jsonString k ++ (l.after.val ++ 58 ::
      (l.ahead.val ++ (t ++ (l.behind.val ++ rest)))))) :=
  (neutral_blank l.before).append ((neutral_jsonString k).append ((neutral_blank l.after).append
    (Neutral.cons (by decide) ((neutral_blank l.ahead).append
      (ht.append ((neutral_blank l.behind).append hrest))))))

mutual

theorem Json.neutral : ∀ v : Json, Neutral v.text
  | .string s => by
    rw [Json.text]
    exact neutral_jsonString s
  | .integer n => by
    rw [Json.text]
    exact neutral_bare (bare_signed n)
  | .flag true => by
    rw [Json.text]
    exact neutral_bare bare_words.1
  | .flag false => by
    rw [Json.text]
    exact neutral_bare bare_words.2.1
  | .null => by
    rw [Json.text]
    exact neutral_bare bare_words.2.2
  | .array gap [] => by
    rw [Json.text]
    exact (neutral_blank gap).bracketed (Or.inr rfl) (Or.inr rfl)
  | .array _ (((w, w'), v) :: items) => by
    rw [Json.text]
    simp only [← List.append_assoc]
    exact ((((neutral_blank w).append v.neutral).append (neutral_blank w')).append
      (neutral_nextItems items)).bracketed (Or.inr rfl) (Or.inr rfl)
  | .object gap [] => by
    rw [Json.text]
    exact (neutral_blank gap).bracketed (Or.inl rfl) (Or.inl rfl)
  | .object gap ((l, k, v) :: members) => by
    have htext : (Json.object gap ((l, k, v) :: members)).text =
        123 :: ((l.before.val ++ (jsonString k ++ (l.after.val ++ 58 ::
          (l.ahead.val ++ (v.text ++ (l.behind.val ++ nextMembers members)))))) ++ [125]) := by
      rw [Json.text]
      simp only [List.append_assoc, List.cons_append]
    rw [htext]
    exact (neutral_member l k v.neutral (neutral_nextMembers members)).bracketed
      (Or.inl rfl) (Or.inl rfl)

theorem neutral_nextItems : ∀ items : List ((Blank × Blank) × Json), Neutral (nextItems items)
  | [] => by
    rw [nextItems]
    exact neutral_nil
  | ((w, w'), v) :: items => by
    rw [nextItems]
    exact Neutral.cons (by decide) ((neutral_blank w).append (v.neutral.append
      ((neutral_blank w').append (neutral_nextItems items))))

theorem neutral_nextMembers : ∀ members : List (Layout × Str × Json),
    Neutral (nextMembers members)
  | [] => by
    rw [nextMembers]
    exact neutral_nil
  | (l, k, v) :: members => by
    rw [nextMembers]
    exact Neutral.cons (by decide) (neutral_member l k v.neutral (neutral_nextMembers members))

end

def Solid (t : Str) : Prop :=
  Bare t ∨ ∃ o c s, t = o :: (s ++ [c]) ∧ Neutral s ∧ (o = 123 ∨ o = 91) ∧ (c = 125 ∨ c = 93)

theorem Json.solid {v : Json} (hv : ∀ s, v ≠ .string s) : Solid v.text := by
  match v with
  | .string s => exact absurd rfl (hv s)
  | .integer n =>
    rw [Json.text]
    exact Or.inl (bare_signed n)
  | .flag true =>
    rw [Json.text]
    exact Or.inl bare_words.1
  | .flag false =>
    rw [Json.text]
    exact Or.inl bare_words.2.1
  | .null =>
    rw [Json.text]
    exact Or.inl bare_words.2.2
  | .array gap [] =>
    rw [Json.text]
    exact Or.inr ⟨91, 93, gap.val, rfl, neutral_blank gap, Or.inr rfl, Or.inr rfl⟩
  | .array _ (((w, w'), v) :: items) =>
    refine Or.inr ⟨91, 93, w.val ++ (v.text ++ (w'.val ++ nextItems items)), ?_,
      (neutral_blank w).append (v.neutral.append ((neutral_blank w').append
        (neutral_nextItems items))), Or.inr rfl, Or.inr rfl⟩
    rw [Json.text]
    simp only [List.append_assoc]
  | .object gap [] =>
    rw [Json.text]
    exact Or.inr ⟨123, 125, gap.val, rfl, neutral_blank gap, Or.inl rfl, Or.inl rfl⟩
  | .object _ ((l, k, v) :: members) =>
    refine Or.inr ⟨123, 125, _, ?_, neutral_member l k v.neutral (neutral_nextMembers members),
      Or.inl rfl, Or.inl rfl⟩
    rw [Json.text]
    simp only [List.append_assoc, List.cons_append]

theorem Solid.head {t : Str} (ht : Solid t) :
    ∃ c s, t = c :: s ∧ space c = false ∧ c ≠ 34 := by
  rcases ht with ⟨hne, hbare⟩ | ⟨o, c, s, rfl, -, ho, -⟩
  · obtain ⟨c, s, rfl⟩ := List.exists_cons_of_ne_nil hne
    obtain ⟨⟨h34, -⟩, -, hspace⟩ := hbare c List.mem_cons_self
    exact ⟨c, s, rfl, hspace, h34⟩
  · refine ⟨o, s ++ [c], rfl, ?_⟩
    rcases ho with rfl | rfl <;> decide

theorem Solid.trimmed_append {t : Str} (ht : Solid t) {u : Str} (hu : ∀ c ∈ u, space c = true) :
    trimmed (t ++ u) = t := by
  obtain ⟨s, c, rfl, hc⟩ : ∃ s c, t = s ++ [c] ∧ space c = false := by
    rcases ht with ⟨hne, hbare⟩ | ⟨o, c, s, rfl, -, -, hc⟩
    · obtain ⟨s, c, rfl⟩ := (List.eq_nil_or_concat t).resolve_left hne
      rw [List.concat_eq_append] at hbare ⊢
      exact ⟨s, c, rfl, (hbare c (List.mem_append_right _ List.mem_cons_self)).2.2⟩
    · refine ⟨o :: s, c, rfl, ?_⟩
      rcases hc with rfl | rfl <;> rfl
  have hall : ∀ c ∈ u.reverse, space c = true := fun c hc => hu c (List.mem_reverse.mp hc)
  rw [trimmed, List.reverse_append, List.dropWhile_append_of_pos hall, ← trimmed]
  exact trimmed_of_last hc

theorem Solid.valueEnd_append {t : Str} (ht : Solid t) (w : Blank) {c : UInt8} (hc : Stop c)
    (rest : Str) : ∃ u u', w.val = u ++ u' ∧
      valueEnd (t ++ (w.val ++ c :: rest)) = some (u' ++ c :: rest) := by
  rcases ht with ⟨hne, hbare⟩ | ⟨o, d, s, rfl, hs, ho, hd⟩
  · refine ⟨w.val, [], (List.append_nil _).symm, ?_⟩
    obtain ⟨b, s, htext⟩ := List.exists_cons_of_ne_nil hne
    obtain ⟨⟨h34, h123, h91, -, -⟩, -, -⟩ := hbare b (htext ▸ List.mem_cons_self)
    have hhead : (t ++ (w.val ++ c :: rest)).head? = some b := by rw [htext]; rfl
    have h1 : (some b == some (123 : UInt8)) = false := by simpa using h123
    have h2 : (some b == some (91 : UInt8)) = false := by simpa using h91
    have h3 : (some b == some (34 : UInt8)) = false := by simpa using h34
    have hall : ∀ d ∈ t ++ w.val, Inert d ∧ d ≠ 44 := by
      intro d hd
      rcases List.mem_append.mp hd with hd | hd
      · exact ⟨(hbare d hd).1, (hbare d hd).2.1⟩
      · obtain ⟨hinert, h44, -⟩ := inert_of_space (w.property d hd)
        exact ⟨hinert, h44⟩
    rw [valueEnd, hhead, h1, h2, h3, ← List.append_assoc]
    exact valueScan_bare hall hc rest
  · refine ⟨[], w.val, rfl, ?_⟩
    have hcontainer : (some o == some (123 : UInt8) || some o == some 91) = true := by
      rcases ho with rfl | rfl <;> rfl
    have hsplit : o :: (s ++ [d]) ++ (w.val ++ c :: rest) =
        o :: (s ++ d :: (w.val ++ c :: rest)) := by simp
    rw [hsplit, valueEnd, List.head?_cons, hcontainer, valueScan_open ho, hs, valueScan_shut hd,
      if_pos ⟨rfl, rfl⟩]

theorem valueEnd_jsonString (s rest : Str) : valueEnd (jsonString s ++ rest) = some rest := by
  have htext : jsonString s ++ rest = 34 :: (s.flatMap quoteByte ++ 34 :: rest) := by
    simp [jsonString]
  have hopen : valueScan false true 0 false (34 :: (s.flatMap quoteByte ++ 34 :: rest)) =
      valueScan false true 0 true (s.flatMap quoteByte ++ 34 :: rest) := by
    rw [valueScan.eq_def]
    simp
  rw [htext, valueEnd]
  simp only [List.head?_cons, Option.some_beq_some]
  exact hopen.trans ((valueScan_quoted s _).trans (if_pos ⟨rfl, rfl⟩))

def Json.reading : Json → Str
  | .string s => s
  | v => v.text

theorem Json.reading_of_not_string {v : Json} (hv : ∀ s, v ≠ .string s) : v.reading = v.text := by
  cases v with
  | string s => exact absurd rfl (hv s)
  | integer _ => rfl
  | flag _ => rfl
  | null => rfl
  | array _ _ => rfl
  | object _ _ => rfl

def Json.isString : Json → Bool
  | .string _ => true
  | _ => false

theorem Json.not_string {v : Json} (h : v.isString = false) (s : Str) : v ≠ .string s := by
  rintro rfl
  cases h

def Json.lookedUp (pool : Bool) (v : Json) : Field :=
  if v.isString = true ∧ pool = false then .declined else .ok v.reading

def seek (pool : Bool) (key : Str) : List Member → Field
  | [] => .declined
  | m :: members =>
    if m.2.1.length > 64 then .declined
    else if m.2.1 ≠ key then seek pool key members
    else m.2.2.lookedUp pool

theorem parseString_overfull {cap : ℕ} {value rest : Str} (h : cap < value.length) :
    parseString cap (value.flatMap quoteByte ++ 34 :: rest) = none := by
  have hloop : ∀ fuel,
      parseStringLoop fuel cap (value.flatMap quoteByte ++ 34 :: rest) = none := by
    induction value generalizing cap with
    | nil => exact absurd h (Nat.not_lt_zero cap)
    | cons c value ih =>
      intro fuel
      cases fuel with
      | zero => rfl
      | succ fuel =>
        rw [List.flatMap_cons, List.append_assoc, parseStringLoop_quoteByte]
        rw [List.length_cons] at h
        split_ifs with hroom
        · rfl
        · rw [ih (by omega) fuel]
          rfl
  exact hloop _

theorem dropWhile_blank {test : UInt8 → Bool} (w : Blank) (htest : ∀ c, space c → test c)
    (t : Str) : (w.val ++ t).dropWhile test = t.dropWhile test :=
  List.dropWhile_append_of_pos fun c hc => htest c (w.property c hc)

theorem jsonFieldLoop_blank (pool : Bool) (key : Str) (w : Blank) (t : Str) :
    jsonFieldLoop pool key fuel (w.val ++ t) = jsonFieldLoop pool key fuel t := by
  cases fuel with
  | zero => rfl
  | succ fuel =>
    rw [jsonFieldLoop, jsonFieldLoop, dropWhile_blank w]
    intro c hc
    rw [hc]
    rfl

theorem Json.valueEnd_append (v : Json) (w : Blank) {c : UInt8} (hc : Stop c) (rest : Str) :
    ∃ u u', w.val = u ++ u' ∧ (v.isString = true → u = []) ∧
      valueEnd (v.text ++ (w.val ++ c :: rest)) = some (u' ++ c :: rest) := by
  cases hv : v.isString with
  | false =>
    obtain ⟨u, u', hw, hend⟩ := (Json.solid (v.not_string hv)).valueEnd_append w hc rest
    exact ⟨u, u', hw, nofun, hend⟩
  | true =>
    obtain ⟨s, rfl⟩ : ∃ s, v = .string s := by
      cases v with
      | string s => exact ⟨s, rfl⟩
      | _ => cases hv
    refine ⟨[], w.val, rfl, fun _ => rfl, ?_⟩
    rw [Json.text]
    exact valueEnd_jsonString s _

theorem Json.text_head (v : Json) :
    ∃ c s, v.text = c :: s ∧ space c = false ∧ (c = 34 ↔ v.isString = true) := by
  cases hv : v.isString with
  | false =>
    obtain ⟨c, s, htext, hspace, hquote⟩ := (Json.solid (v.not_string hv)).head
    exact ⟨c, s, htext, hspace, iff_of_false hquote Bool.false_ne_true⟩
  | true =>
    cases v with
    | string s =>
      refine ⟨34, s.flatMap quoteByte ++ [34], ?_, rfl, iff_of_true rfl rfl⟩
      rw [Json.text, jsonString]
    | _ => cases hv

theorem jsonFieldLoop_layout (pool : Bool) (key : Str) {fuel : ℕ} {skip : Str}
    (hskip : ∀ c ∈ skip, (space c || c == 123 || c == 44) = true) (m : Member) {c : UInt8}
    (hc : Stop c) (rest : Str) :
    jsonFieldLoop pool key (fuel + 1) (skip ++ (jsonString m.2.1 ++ (m.1.after.val ++ 58 ::
      (m.1.ahead.val ++ (m.2.2.text ++ (m.1.behind.val ++ c :: rest)))))) =
      if m.2.1.length > 64 then .declined
      else if m.2.1 ≠ key then jsonFieldLoop pool key fuel (c :: rest)
      else m.2.2.lookedUp pool := by
  obtain ⟨l, k, v⟩ := m
  obtain ⟨u, u', hbehind, hstring, hend⟩ := v.valueEnd_append l.behind hc rest
  obtain ⟨b, s, htext, hspace, hquote⟩ := v.text_head
  dsimp only
  have hopen : (skip ++ (jsonString k ++ (l.after.val ++ 58 ::
      (l.ahead.val ++ (v.text ++ (l.behind.val ++ c :: rest)))))).dropWhile
        (fun c => space c || c == 123 || c == 44) =
      34 :: (k.flatMap quoteByte ++ 34 :: (l.after.val ++ 58 ::
        (l.ahead.val ++ (v.text ++ (l.behind.val ++ c :: rest))))) := by
    rw [List.dropWhile_append_of_pos hskip]
    simp [jsonString, space]
  rw [jsonFieldLoop, hopen]
  by_cases hlong : k.length > 64
  · simp only [parseString_overfull hlong, if_pos hlong, ne_eq, not_true_eq_false, if_false]
  have hcolon : (l.after.val ++ 58 :: (l.ahead.val ++ (v.text ++ (l.behind.val ++ c :: rest)))
      ).dropWhile space = 58 :: (l.ahead.val ++ (v.text ++ (l.behind.val ++ c :: rest))) :=
    dropWhile_blank l.after (fun _ h => h) _
  have hstart : (l.ahead.val ++ (v.text ++ (l.behind.val ++ c :: rest))).dropWhile space =
      v.text ++ (l.behind.val ++ c :: rest) := by
    rw [dropWhile_blank l.ahead (fun _ h => h), htext, List.cons_append, List.dropWhile_cons,
      hspace]
    rfl
  have hne : v.text ++ (l.behind.val ++ c :: rest) ≠ [] := by simp
  have hsplit : v.text ++ (l.behind.val ++ c :: rest) = (v.text ++ u) ++ (u' ++ c :: rest) := by
    rw [hbehind]
    simp only [List.append_assoc]
  have hbefore : before (v.text ++ (l.behind.val ++ c :: rest)) (u' ++ c :: rest) =
      v.text ++ u := by
    rw [hsplit, before_append]
  have hspaces : ∀ {d}, d ∈ u ++ u' → space d = true := fun {d} hd => by
    rw [← hbehind] at hd
    exact l.behind.property d hd
  have hnext : jsonFieldLoop pool key fuel (u' ++ c :: rest) =
      jsonFieldLoop pool key fuel (c :: rest) :=
    jsonFieldLoop_blank pool key ⟨u', fun d hd => hspaces (List.mem_append_right u hd)⟩ _
  have hhead : (v.text ++ (l.behind.val ++ c :: rest)).head? = some b := by
    rw [htext]
    rfl
  simp only [parseString_quoted (Nat.le_of_not_lt hlong), hcolon, hstart, hne, hend, hbefore, hnext,
    hhead, ne_eq, not_true_eq_false, if_false, if_neg hlong]
  by_cases hk : k = key
  · rw [if_neg (not_not.mpr hk), if_neg (not_not.mpr hk), Json.lookedUp]
    cases hv : v.isString with
    | false =>
      have hb : ¬ some b = some 34 := by
        rw [Option.some_inj, hquote, hv]
        exact Bool.false_ne_true
      rw [if_neg hb, if_neg (by simp), v.reading_of_not_string (v.not_string hv),
        (Json.solid (v.not_string hv)).trimmed_append fun d hd =>
          hspaces (List.mem_append_left u' hd)]
    | true =>
      rw [hstring hv, List.append_nil, if_pos (congrArg some (hquote.mpr hv))]
      cases v with
      | string s =>
        have hroom : s.length ≤ (Json.string s).text.length - 2 := by
          have := length_le_flatMap_quoteByte s
          rw [Json.text, jsonString]
          simp only [List.length_cons, List.length_append, List.length_nil]
          omega
        have hparse : parseString ((Json.string s).text.length - 2)
            ((Json.string s).text.drop 1) = some (s, []) := by
          have hdrop : (Json.string s).text.drop 1 = s.flatMap quoteByte ++ [34] := by
            rw [Json.text, jsonString]
            rfl
          rw [hdrop]
          exact parseString_quoted hroom
        simp only [hparse]
        cases pool <;> rfl
      | _ => cases hv
  · rw [if_pos hk, if_pos hk]

theorem nextMembers_stop (members : List Member) (trail : Str) :
    ∃ c rest, nextMembers members ++ 125 :: trail = c :: rest ∧ Stop c := by
  match members with
  | [] =>
    rw [nextMembers]
    exact ⟨125, trail, rfl, Or.inr (Or.inl rfl)⟩
  | (l, k, v) :: members =>
    rw [nextMembers]
    exact ⟨44, _, rfl, Or.inl rfl⟩

theorem jsonFieldLoop_seek (pool : Bool) (key : Str) {members : List Member} {fuel : ℕ}
    (hfuel : members.length ≤ fuel) (trail : Str) :
    jsonFieldLoop pool key fuel (nextMembers members ++ 125 :: trail) = seek pool key members := by
  induction members generalizing fuel with
  | nil =>
    rw [nextMembers, List.nil_append, jsonFieldLoop_end]
    rfl
  | cons m members ih =>
    obtain ⟨n, rfl⟩ := Nat.exists_eq_add_of_le hfuel
    obtain ⟨c, rest, hrest, hc⟩ := nextMembers_stop members trail
    have hloop : jsonFieldLoop pool key (members.length + n) (c :: rest) =
        seek pool key members := by
      rw [← hrest]
      exact ih (Nat.le_add_right _ _)
    have htext : nextMembers (m :: members) ++ 125 :: trail =
        (44 :: m.1.before.val) ++ (jsonString m.2.1 ++ (m.1.after.val ++ 58 ::
          (m.1.ahead.val ++ (m.2.2.text ++ (m.1.behind.val ++ c :: rest))))) := by
      obtain ⟨l, k, v⟩ := m
      rw [nextMembers, ← hrest]
      simp only [List.append_assoc, List.cons_append]
    have hsucc : (m :: members).length + n = members.length + n + 1 := by
      rw [List.length_cons]
      omega
    have hskip : ∀ d ∈ 44 :: m.1.before.val, (space d || d == 123 || d == 44) = true := by
      intro d hd
      rcases List.mem_cons.mp hd with rfl | hd
      · rfl
      · rw [m.1.before.property d hd]
        rfl
    rw [htext, hsucc, jsonFieldLoop_layout pool key hskip m hc rest, hloop, seek]

theorem length_nextMembers (members : List Member) :
    members.length ≤ (nextMembers members).length := by
  induction members with
  | nil => exact Nat.zero_le _
  | cons m members ih =>
    obtain ⟨l, k, v⟩ := m
    rw [nextMembers]
    simp only [List.length_cons, List.length_append]
    omega

def document (lead : Blank) (gap : Blank) (members : List Member) (trail : Blank) : Str :=
  lead.val ++ ((Json.object gap members).text ++ trail.val)

theorem jsonField_document (pool : Bool) (key : Str) (lead gap : Blank) (members : List Member)
    (trail : Blank) : jsonField pool (document lead gap members trail) key =
      if key.length ≥ 64 then .declined else seek pool key members := by
  rw [jsonField]
  split_ifs with hkey
  · rfl
  rw [document, jsonFieldLoop_blank]
  cases members with
  | nil =>
    rw [Json.text]
    have hend : ∀ fuel, jsonFieldLoop pool key fuel (123 :: (gap.val ++ [125]) ++ trail.val) =
        .declined := by
      intro fuel
      cases fuel with
      | zero => rfl
      | succ fuel =>
        have hopen : (123 :: (gap.val ++ [125]) ++ trail.val).dropWhile
            (fun c => space c || c == 123 || c == 44) = 125 :: trail.val := by
          have hblank := dropWhile_blank gap
            (fun c (h : space c = true) =>
              show (space c || c == 123 || c == 44) = true by rw [h]; rfl)
            (125 :: trail.val)
          simpa [space] using hblank
        rw [jsonFieldLoop, hopen]
        rfl
    exact hend _
  | cons m members =>
    obtain ⟨c, rest, hrest, hc⟩ := nextMembers_stop members trail.val
    have htext : (Json.object gap (m :: members)).text ++ trail.val =
        (123 :: m.1.before.val) ++ (jsonString m.2.1 ++ (m.1.after.val ++ 58 ::
          (m.1.ahead.val ++ (m.2.2.text ++ (m.1.behind.val ++ c :: rest))))) := by
      obtain ⟨l, k, v⟩ := m
      rw [Json.text, ← hrest]
      simp only [List.append_assoc, List.cons_append, List.nil_append]
    have hskip : ∀ d ∈ 123 :: m.1.before.val, (space d || d == 123 || d == 44) = true := by
      intro d hd
      rcases List.mem_cons.mp hd with rfl | hd
      · rfl
      · rw [m.1.before.property d hd]
        rfl
    have hlength : members.length + 1 ≤
        (lead.val ++ ((Json.object gap (m :: members)).text ++ trail.val)).length := by
      have := length_nextMembers members
      rw [htext, ← hrest]
      simp only [List.length_cons, List.length_append]
      omega
    obtain ⟨n, hn⟩ := Nat.exists_eq_add_of_le hlength
    rw [Nat.add_right_comm] at hn
    rw [hn, htext, jsonFieldLoop_layout pool key hskip m hc rest, ← hrest,
      jsonFieldLoop_seek pool key (Nat.le_add_right _ _) trail.val, seek]

/-- The value of the first member with the name. -/
def wanted (key : Str) (members : List Member) : Field :=
  match members.find? fun m => m.2.1 = key with
  | none => .declined
  | some m => .ok m.2.2.reading

def Legible (pool : Bool) (key : Str) (members : List Member) : Prop :=
  ∀ m, (members.find? fun m => m.2.1 = key) = some m →
    key.length < 64 ∧ (∀ e ∈ members.takeWhile fun m => m.2.1 ≠ key, e.2.1.length ≤ 64) ∧
      (pool = true ∨ m.2.2.isString = false)

theorem lookedUp_iff (pool : Bool) (v : Json) :
    v.lookedUp pool = .ok v.reading ↔ pool = true ∨ v.isString = false := by
  unfold Json.lookedUp
  cases pool <;> cases v.isString <;> simp

theorem seek_iff (pool : Bool) {key : Str} (hkey : key.length < 64) (members : List Member) :
    seek pool key members = wanted key members ↔ Legible pool key members := by
  induction members with
  | nil => exact iff_of_true rfl nofun
  | cons m members ih =>
    rw [seek]
    by_cases hk : m.2.1 = key
    · have hfind : (m :: members).find? (fun m => m.2.1 = key) = some m :=
        List.find?_cons_of_pos (by simpa using hk)
      have htake : (m :: members).takeWhile (fun m => m.2.1 ≠ key) = [] :=
        List.takeWhile_cons_of_neg (by simpa using hk)
      rw [if_neg (by rw [hk]; omega), if_neg (not_not.mpr hk)]
      unfold wanted Legible
      rw [hfind, htake]
      dsimp only
      rw [lookedUp_iff]
      constructor
      · rintro h m' heq
        obtain rfl := Option.some.inj heq
        exact ⟨hkey, nofun, h⟩
      · intro h
        exact (h m rfl).2.2
    · have hfind : (m :: members).find? (fun m => m.2.1 = key) =
          members.find? (fun m => m.2.1 = key) := List.find?_cons_of_neg (by simpa using hk)
      have htake : (m :: members).takeWhile (fun m => m.2.1 ≠ key) =
          m :: members.takeWhile (fun m => m.2.1 ≠ key) :=
        List.takeWhile_cons_of_pos (by simpa using hk)
      have hwanted : wanted key (m :: members) = wanted key members := by
        rw [wanted, hfind, wanted]
      rw [hwanted, if_pos hk]
      split_ifs with hlong
      · unfold wanted Legible
        rw [hfind, htake]
        cases members.find? (fun m => m.2.1 = key) with
        | none => exact iff_of_true rfl nofun
        | some found =>
          refine iff_of_false nofun fun h => ?_
          have := (h found rfl).2.1 m List.mem_cons_self
          omega
      · rw [ih]
        unfold Legible
        rw [hfind, htake]
        refine forall₂_congr fun found _ => and_congr_right fun _ => and_congr_left fun _ => ?_
        rw [List.forall_mem_cons]
        exact ⟨fun h => ⟨Nat.le_of_not_lt hlong, h⟩, fun h => h.2⟩

theorem jsonField_legible (pool : Bool) (key : Str) (lead gap : Blank) (members : List Member)
    (trail : Blank) : jsonField pool (document lead gap members trail) key = wanted key members ↔
      Legible pool key members := by
  rw [jsonField_document]
  split_ifs with hkey
  · unfold wanted Legible
    cases members.find? (fun m => m.2.1 = key) with
    | none => exact iff_of_true rfl nofun
    | some found =>
      refine iff_of_false nofun fun h => ?_
      have := (h found rfl).1
      omega
  · exact seek_iff pool (Nat.lt_of_not_le hkey) members

end ApiJson
