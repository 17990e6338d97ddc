import NginxMedia.HlsUploadPaths
import NginxMedia.MediaGraph
import NginxMedia.PrefixCode

/-! The directory of a programme below the root of an HLS output, as `ngx_media_hls_segmenter.c`
writes it: an identity that is short and plain keeps its spelling, any other one becomes its length
and its bytes in hexadecimal. -/
namespace ProgramDirs

open ByteString HlsUploadPaths PrefixCode
open MediaGraph (maxName maxPath)

def plainByte (c : UInt8) : Bool :=
  (c ≥ 97 && c ≤ 122) || (c ≥ 65 && c ≤ 90) || (c ≥ 48 && c ≤ 57) || c == 45 || c == 95

def plainName (name : Str) : Bool :=
  if name.length = 0 ∨ name.length > 255 then false else name.all plainByte

def digitsLoop (n digits : ℕ) : ℕ :=
  if n ≥ 10 then digitsLoop (n / 10) (digits + 1) else digits

def identitySize (name : Str) (plain : Bool) : ℕ :=
  if plain then 1 + name.length
  else
    2 + digitsLoop name.length 1 +
      if name.length ≠ 0 then 1 + name.length * 2 + (name.length - 1) / 120 else 0

def hex (digit : ℕ) : UInt8 := (ascii "0123456789abcdef").getD digit 0

/-- The loop of `ngx_media_hls_identity_write()` from the index `i` on. -/
def hexLoop : ℕ → Str → Str
  | _, [] => []
  | i, c :: rest =>
    (if i % 120 = 0 then [(47 : UInt8)] else []) ++
      hex (c.toNat >>> 4) :: hex (c.toNat &&& 15) :: hexLoop (i + 1) rest

def identityWrite (name : Str) (plain : Bool) : Str :=
  47 :: if plain then name else 126 :: decimal name.length ++ hexLoop 0 name

/-- The string that is returned: the length that was computed, and the bytes that were written in
front of the terminating zero. -/
structure Path where
  len : ℕ
  data : Str
  deriving DecidableEq, Repr

def programDir (allocs : Bool) (root application name : Str) : Option Path :=
  if application.length > maxName ∨ name.length = 0 ∨ name.length > maxName then none
  else
    let appPlain := plainName application
    let namePlain := plainName name
    let extra := identitySize application appPlain + identitySize name namePlain
    if root.length = 0 ∨ root.length > maxPath ∨ extra > maxPath then none
    else if allocs = false then none
    else some ⟨root.length + extra,
      root ++ identityWrite application appPlain ++ identityWrite name namePlain⟩

theorem decimal_step {n : ℕ} (h : 10 ≤ n) :
    (decimal n).length = (decimal (n / 10)).length + 1 := by
  have hn : n ≠ 0 := by omega
  have hq : n / 10 ≠ 0 := by omega
  rw [decimal, decimal, if_neg hn, if_neg hq, Nat.digits_def' (by omega) (Nat.pos_of_ne_zero hn)]
  simp

theorem decimal_small {n : ℕ} (h : n < 10) : (decimal n).length = 1 := by
  unfold decimal
  split_ifs with hn
  · rfl
  · rw [Nat.digits_of_lt 10 n hn h]
    rfl

theorem digitsLoop_eq (n digits : ℕ) : digitsLoop n digits + 1 = digits + (decimal n).length := by
  induction n, digits using digitsLoop.induct with
  | case1 n digits hten ih =>
    rw [digitsLoop, if_pos hten, ih, decimal_step hten]
    omega
  | case2 n digits hten =>
    rw [digitsLoop, if_neg hten, decimal_small (by omega)]

theorem hexLoop_length (i : ℕ) (name : Str) :
    (hexLoop i name).length + (i + 119) / 120 =
      2 * name.length + (i + name.length + 119) / 120 := by
  induction name generalizing i with
  | nil => simp [hexLoop]
  | cons c rest ih =>
    have hrest := ih (i + 1)
    rw [hexLoop]
    split_ifs with hi
    · simp only [List.length_append, List.length_cons, List.length_nil]
      omega
    · simp only [List.length_append, List.length_cons, List.length_nil]
      omega

theorem identityWrite_length (name : Str) (plain : Bool) :
    (identityWrite name plain).length = identitySize name plain := by
  have hdigits := digitsLoop_eq name.length 1
  have hloop := hexLoop_length 0 name
  unfold identityWrite identitySize
  cases plain with
  | true =>
    simp only [if_true, List.length_cons]
    omega
  | false =>
    simp only [Bool.false_eq_true, if_false, List.length_cons, List.length_append,
      List.cons_append]
    split_ifs with hname <;> omega

/-- A piece of an identity in hexadecimal. -/
def digits (bytes : Str) : Str :=
  bytes.flatMap fun c => [hex (c.toNat >>> 4), hex (c.toNat &&& 15)]

def pieces (name : Str) : List Str :=
  if name = [] then [] else digits (name.take 120) :: pieces (name.drop 120)
termination_by name.length
decreasing_by
  have : 0 < name.length := List.length_pos_iff.mpr ‹_›
  rw [List.length_drop]
  omega

/-- The components that an identity becomes. -/
def parts (name : Str) : List Str :=
  if plainName name then [name] else (126 :: decimal name.length) :: pieces name

theorem hexLoop_within {n : ℕ} {i : ℕ} (name : Str) (hi : 0 < i % 120)
    (hn : i % 120 + n = 120) :
    hexLoop i name = digits (name.take n) ++ hexLoop (i + n) (name.drop n) := by
  induction n generalizing i name with
  | zero => omega
  | succ n ih =>
    cases name with
    | nil => rfl
    | cons c rest =>
      rw [hexLoop, if_neg (by omega)]
      by_cases hlast : n = 0
      · subst hlast
        rfl
      · rw [ih rest (by omega) (by omega)]
        have hindex : i + 1 + n = i + (n + 1) := by omega
        rw [hindex]
        rfl

theorem hexLoop_pieces {i : ℕ} (hi : i % 120 = 0) (name : Str) :
    hexLoop i name = joined (pieces name) := by
  induction name using pieces.induct generalizing i with
  | case1 =>
    rw [pieces, if_pos rfl]
    rfl
  | case2 name hne ih =>
    rw [pieces, if_neg hne, joined_cons]
    cases name with
    | nil => exact absurd rfl hne
    | cons c rest =>
      have hnext : hexLoop (i + 1 + 119) (rest.drop 119) =
          joined (pieces ((c :: rest).drop 120)) := ih (by omega)
      rw [hexLoop, if_pos hi, hexLoop_within rest (n := 119) (by omega) (by omega), hnext]
      rfl

theorem identityWrite_joined (name : Str) :
    identityWrite name (plainName name) = joined (parts name) := by
  unfold identityWrite parts
  cases plainName name with
  | true => simp
  | false => simp [hexLoop_pieces]

theorem hex_injective : ∀ a < 16, ∀ b < 16, hex a = hex b → a = b := by
  decide

theorem hex_plain : ∀ a < 16, hex a ≠ 47 ∧ hex a ≠ 46 := by
  decide

theorem high_lt (c : UInt8) : c.toNat >>> 4 < 16 := by
  have := c.toNat_lt
  rw [Nat.shiftRight_eq_div_pow]
  omega

theorem low_lt (c : UInt8) : c.toNat &&& 15 < 16 := by
  rw [Nat.and_two_pow_sub_one_eq_mod c.toNat 4]
  omega

theorem byte_eq {a b : UInt8} (hhigh : a.toNat >>> 4 = b.toNat >>> 4)
    (hlow : a.toNat &&& 15 = b.toNat &&& 15) : a = b := by
  rw [Nat.shiftRight_eq_div_pow, Nat.shiftRight_eq_div_pow] at hhigh
  rw [Nat.and_two_pow_sub_one_eq_mod a.toNat 4, Nat.and_two_pow_sub_one_eq_mod b.toNat 4] at hlow
  apply UInt8.toNat_inj.mp
  omega

@[simp] theorem digits_cons (c : UInt8) (rest : Str) :
    digits (c :: rest) = hex (c.toNat >>> 4) :: hex (c.toNat &&& 15) :: digits rest := rfl

theorem digits_length (name : Str) : (digits name).length = 2 * name.length := by
  induction name with
  | nil => rfl
  | cons c rest ih =>
    rw [digits_cons, List.length_cons, List.length_cons, List.length_cons, ih]
    omega

theorem digits_injective : Function.Injective digits := by
  intro a
  induction a with
  | nil =>
    intro b h
    have := congrArg List.length h
    rw [digits_length, digits_length] at this
    exact (List.length_eq_zero_iff.mp (by simpa using this.symm)).symm
  | cons c rest ih =>
    intro b h
    cases b with
    | nil => cases h
    | cons d more =>
      rw [digits_cons, digits_cons, List.cons.injEq, List.cons.injEq] at h
      obtain ⟨hhigh, hlow, hrest⟩ := h
      have hbyte := byte_eq (hex_injective _ (high_lt c) _ (high_lt d) hhigh)
        (hex_injective _ (low_lt c) _ (low_lt d) hlow)
      rw [hbyte, ih hrest]

theorem mem_digits {name : Str} {c : UInt8} (h : c ∈ digits name) : c ≠ 47 ∧ c ≠ 46 := by
  obtain ⟨d, -, hc⟩ := List.mem_flatMap.mp h
  rcases List.mem_pair.mp hc with rfl | rfl
  · exact hex_plain _ (high_lt d)
  · exact hex_plain _ (low_lt d)

theorem pieces_flatten (name : Str) : (pieces name).flatten = digits name := by
  induction name using pieces.induct with
  | case1 =>
    rw [pieces, if_pos rfl]
    rfl
  | case2 name hne ih =>
    rw [pieces, if_neg hne, List.flatten_cons, ih]
    unfold digits
    rw [← List.flatMap_append, List.take_append_drop]

theorem plain_tilde {name : Str} (h : plainName name = true) : (126 : UInt8) ∉ name := by
  intro hmem
  unfold plainName at h
  split_ifs at h
  exact absurd (List.all_eq_true.mp h 126 hmem) (by decide)

theorem parts_prefixFree : PrefixFree parts := by
  intro a b hpre
  unfold parts at hpre
  cases ha : plainName a with
  | true =>
    cases hb : plainName b with
    | true =>
      rw [ha, hb, if_pos rfl, if_pos rfl] at hpre
      exact (List.cons_prefix_cons.mp hpre).1
    | false =>
      rw [ha, hb, if_pos rfl, if_neg (by decide)] at hpre
      have hhead := (List.cons_prefix_cons.mp hpre).1
      exact absurd (hhead ▸ List.mem_cons_self) (plain_tilde ha)
  | false =>
    cases hb : plainName b with
    | true =>
      rw [ha, hb, if_pos rfl, if_neg (by decide)] at hpre
      have hhead := (List.cons_prefix_cons.mp hpre).1
      exact absurd (hhead ▸ List.mem_cons_self) (plain_tilde hb)
    | false =>
      rw [ha, hb, if_neg (by decide)] at hpre
      obtain ⟨hhead, htail⟩ := List.cons_prefix_cons.mp hpre
      have hlength : a.length = b.length := by
        rw [← decimalValue_decimal a.length, (List.cons.inj hhead).2, decimalValue_decimal]
      obtain ⟨more, hmore⟩ := htail
      have hdigits : digits a <+: digits b := by
        rw [← pieces_flatten a, ← pieces_flatten b, ← hmore, List.flatten_append]
        exact List.prefix_append _ _
      exact digits_injective (hdigits.eq_of_length (by rw [digits_length, digits_length, hlength]))

theorem plain_good {name : Str} (h : plainName name = true) :
    Good name ∧ name.length ≤ 255 := by
  unfold plainName at h
  split_ifs at h with hlen
  have hplain := List.all_eq_true.mp h
  refine ⟨⟨⟨?_, ?_, ?_⟩, ?_⟩, by omega⟩
  · rintro rfl
    exact hlen (Or.inl rfl)
  · rintro rfl
    exact absurd (hplain 46 (by decide)) (by decide)
  · rintro rfl
    exact absurd (hplain 46 (by decide)) (by decide)
  · intro hslash
    exact absurd (hplain 47 hslash) (by decide)

theorem decimal_slash (n : ℕ) : (47 : UInt8) ∉ decimal n := by
  intro hmem
  obtain ⟨d, hd, heq⟩ := mem_decimal hmem
  have hten : ∀ d < 10, UInt8.ofNat (48 + d) ≠ 47 := by decide
  exact hten d hd heq.symm

theorem label_good {name : Str} (h : name.length ≤ maxName) :
    Good (126 :: decimal name.length) ∧ (126 :: decimal name.length).length ≤ 255 := by
  have hshort : (decimal name.length).length ≤ 3 := by
    unfold maxName at h
    by_cases h1 : name.length < 10
    · rw [decimal_small h1]
      omega
    by_cases h2 : name.length / 10 < 10
    · rw [decimal_step (by omega), decimal_small h2]
      omega
    · rw [decimal_step (by omega), decimal_step (by omega), decimal_small (by omega)]
  refine ⟨⟨⟨List.cons_ne_nil _ _, ?_, ?_⟩, ?_⟩, ?_⟩
  · intro heq
    exact absurd (List.cons.inj heq).1 (by decide)
  · intro heq
    exact absurd (List.cons.inj heq).1 (by decide)
  · intro hmem
    rcases List.mem_cons.mp hmem with htilde | hmem
    · exact absurd htilde (by decide)
    · exact decimal_slash _ hmem
  · rw [List.length_cons]
    omega

theorem pieces_good (name : Str) : ∀ part ∈ pieces name, Good part ∧ part.length ≤ 255 := by
  induction name using pieces.induct with
  | case1 =>
    rw [pieces, if_pos rfl]
    simp
  | case2 name hne ih =>
    rw [pieces, if_neg hne]
    intro part hpart
    rcases List.mem_cons.mp hpart with rfl | hpart
    · have hlen := digits_length (name.take 120)
      have hpos : 0 < name.length := List.length_pos_iff.mpr hne
      rw [List.length_take] at hlen
      refine ⟨⟨⟨?_, ?_, ?_⟩, fun hmem => (mem_digits hmem).1 rfl⟩, by omega⟩
      · intro hnil
        rw [hnil] at hlen
        simp only [List.length_nil] at hlen
        omega
      · intro hdot
        exact (mem_digits (hdot ▸ List.mem_cons_self)).2 rfl
      · intro hdots
        exact (mem_digits (hdots ▸ List.mem_cons_self)).2 rfl
    · exact ih part hpart

theorem parts_good {name : Str} (h : name.length ≤ maxName) :
    ∀ part ∈ parts name, Good part ∧ part.length ≤ 255 := by
  unfold parts
  cases hplain : plainName name with
  | true =>
    intro part hpart
    obtain rfl := List.mem_singleton.mp hpart
    exact plain_good hplain
  | false =>
    intro part hpart
    rcases List.mem_cons.mp hpart with rfl | hpart
    · exact label_good h
    · exact pieces_good name part hpart

def components (path : Str) : List Str := (path.splitOn 47).filter (· ≠ [])

theorem components_joined {ps : List Str} (h : ∀ part ∈ ps, Good part) (root : Str) :
    components (root ++ joined ps) = components root ++ ps := by
  induction ps generalizing root with
  | nil => simp
  | cons part rest ih =>
    obtain ⟨⟨hne, -, -⟩, hslash⟩ := h part List.mem_cons_self
    have hrest := ih (fun q hq => h q (List.mem_cons_of_mem _ hq)) part
    rw [joined_cons]
    unfold components at hrest ⊢
    rw [List.splitOn_append_cons_self, List.filter_append, hrest,
      List.splitOn_eq_singleton hslash]
    simp [hne]

theorem identitySize_le {name : Str} (h : name.length ≤ maxName) (plain : Bool) :
    identitySize name plain ≤ 1024 := by
  have hdigits := digitsLoop_eq name.length 1
  have hlabel := (label_good h).2
  rw [List.length_cons] at hlabel
  unfold maxName at h
  unfold identitySize
  split_ifs <;> omega

@[ext] structure Identity where
  application : Str
  name : Str
  applicationShort : application.length ≤ maxName
  named : name ≠ []
  nameShort : name.length ≤ maxName

def Identity.below (i : Identity) : List Str := parts i.application ++ parts i.name

theorem Identity.below_prefixFree : PrefixFree Identity.below := by
  intro i j hpre
  have hpair := parts_prefixFree.pair parts_prefixFree (i.application, i.name)
    (j.application, j.name) hpre
  exact Identity.ext (congrArg Prod.fst hpair) (congrArg Prod.snd hpair)

theorem Identity.below_good (i : Identity) :
    ∀ part ∈ i.below, Good part ∧ part.length ≤ 255 := by
  intro part hpart
  rcases List.mem_append.mp hpart with hpart | hpart
  · exact parts_good i.applicationShort part hpart
  · exact parts_good i.nameShort part hpart

theorem programDir_some {root : Str} (hroot : root ≠ []) (hlong : root.length ≤ maxPath)
    (i : Identity) :
    ∃ path, programDir true root i.application i.name = some path ∧
      path.data = root ++ joined i.below ∧ path.len = path.data.length := by
  have happ := i.applicationShort
  have hname := i.nameShort
  have hpos : 0 < i.name.length := List.length_pos_iff.mpr i.named
  have hrootPos : 0 < root.length := List.length_pos_iff.mpr hroot
  have hextra : identitySize i.application (plainName i.application) +
      identitySize i.name (plainName i.name) ≤ maxPath :=
    (Nat.add_le_add (identitySize_le happ _) (identitySize_le hname _)).trans (by decide)
  refine ⟨⟨root.length + (identitySize i.application (plainName i.application) +
      identitySize i.name (plainName i.name)),
    root ++ identityWrite i.application (plainName i.application) ++
      identityWrite i.name (plainName i.name)⟩, ?_, ?_, ?_⟩
  · rw [programDir, if_neg (by omega)]
    dsimp only
    rw [if_neg (by omega), if_neg (by decide)]
  · dsimp only
    rw [Identity.below, joined_append, ← identityWrite_joined, ← identityWrite_joined,
      ← List.append_assoc]
  · dsimp only
    rw [List.length_append, List.length_append, identityWrite_length, identityWrite_length,
      Nat.add_assoc]

/-- Two programmes have directories of which neither is the other one or above it; what is below
the root are entries that a file system can hold, and the string is as long as was computed. -/
theorem directories_apart {root : Str} (hroot : root ≠ []) (hlong : root.length ≤ maxPath)
    (i : Identity) :
    ∃ path, programDir true root i.application i.name = some path ∧
      path.len = path.data.length ∧
      (∃ entries, components path.data = components root ++ entries ∧
        ∀ part ∈ entries, part ≠ ascii "." ∧ part ≠ ascii ".." ∧ part.length ≤ 255) ∧
      ∀ j, j ≠ i → ∃ other, programDir true root j.application j.name = some other ∧
        path.data ≠ other.data ∧ ¬ components path.data <+: components other.data ∧
        ¬ components other.data <+: components path.data := by
  have hcomponents : ∀ (i : Identity) path, path = root ++ joined i.below →
      components path = components root ++ i.below := by
    rintro i path rfl
    exact components_joined (fun part hpart => (i.below_good part hpart).1) root
  obtain ⟨path, hpath, hdata, hlen⟩ := programDir_some hroot hlong i
  refine ⟨path, hpath, hlen, ⟨i.below, hcomponents i _ hdata, ?_⟩, ?_⟩
  · intro part hpart
    obtain ⟨⟨⟨-, hdot, hdots⟩, -⟩, hshort⟩ := i.below_good part hpart
    exact ⟨hdot, hdots, hshort⟩
  · intro j hne
    obtain ⟨other, hother, hotherData, -⟩ := programDir_some hroot hlong j
    have hapart : ∀ a b : Identity, a ≠ b →
        ¬ components root ++ a.below <+: components root ++ b.below := by
      intro a b hab hpre
      exact hab (Identity.below_prefixFree a b ((List.prefix_append_right_inj _).mp hpre))
    have hforth := hapart i j (Ne.symm hne)
    have hback := hapart j i hne
    rw [← hcomponents i _ hdata, ← hcomponents j _ hotherData] at hforth hback
    refine ⟨other, hother, ?_, hforth, hback⟩
    intro heq
    exact hforth (heq ▸ List.prefix_rfl)

def newsOne : Identity :=
  ⟨ascii "live", ascii "news.one", by decide, by decide, by decide⟩

theorem directories_apart_news :
    ∃ path, programDir true (ascii "hls") newsOne.application newsOne.name = some path ∧
      path.len = path.data.length ∧
      (∃ entries, components path.data = components (ascii "hls") ++ entries ∧
        ∀ part ∈ entries, part ≠ ascii "." ∧ part ≠ ascii ".." ∧ part.length ≤ 255) ∧
      ∀ j, j ≠ newsOne → ∃ other, programDir true (ascii "hls") j.application j.name = some other ∧
        path.data ≠ other.data ∧ ¬ components path.data <+: components other.data ∧
        ¬ components other.data <+: components path.data :=
  directories_apart (by decide) (by decide) newsOne

/-- A root that leads upwards stands in the path as it is. -/
theorem root_dots_kept :
    ¬ ∀ (root : Str) (i : Identity), ∀ path,
      programDir true root i.application i.name = some path →
        ∀ part ∈ components path.data, part ≠ ascii "." ∧ part ≠ ascii ".." := by
  intro h
  obtain ⟨path, hpath, hdata, -⟩ := @programDir_some (ascii "../hls") (by decide)
    (by decide) newsOne
  have hcomponents := components_joined (fun part hpart => (newsOne.below_good part hpart).1)
    (ascii "../hls")
  rw [← hdata] at hcomponents
  refine (h _ newsOne path hpath (ascii "..") ?_).2 rfl
  rw [hcomponents]
  exact List.mem_append_left _ (by decide)

end ProgramDirs
