import NginxMedia.ByteString
import NginxMedia.CString
import Mathlib.Data.List.Basic
import Mathlib.Data.List.Induction

/-! The stream id of an SRT publisher, `ngx_media_srt_streamid.c`: comma-separated pairs, of which
`r`, `m` and `s` are kept. The parser's loop is compared with the grammar of such ids. -/
namespace SrtStreamId

open ByteString (ascii)

abbrev Bytes := List UInt8

def maxLength : ℕ := 512
def nameMax : ℕ := 128

def comma : UInt8 := 0x2C
def equals : UInt8 := 0x3D
def slash : UInt8 := 0x2F

/-- `#!::` -/
def mark : Bytes := ascii "#!::"

def keyR : UInt8 := 0x72
def keyM : UInt8 := 0x6D
def keyS : UInt8 := 0x73

inductive Mode where
  | unknown
  | publish
  | request
  deriving DecidableEq, Repr

/-- `ngx_media_srt_streamid_t`; the fields are what they point to in `storage`. -/
structure StreamId where
  raw : Bytes
  resource : Bytes
  mode : Bytes
  source : Bytes
  application : Bytes
  stream : Bytes
  modeKind : Mode
  pairs : ℕ
  deriving DecidableEq, Repr

/-- Letters, digits and `-`, `_`, `.`. -/
def nameByte (c : UInt8) : Bool :=
  (0x61 ≤ c ∧ c ≤ 0x7A) ∨ (0x41 ≤ c ∧ c ≤ 0x5A) ∨ (0x30 ≤ c ∧ c ≤ 0x39) ∨ c = 0x2D ∨ c = 0x5F ∨
    c = 0x2E

def nameOk (name : Bytes) (allowSlash : Bool) : Bool :=
  if name.length = 0 ∨ name.length > nameMax then false
  else name.all fun c => nameByte c || (allowSlash && c == slash)

def store (id : StreamId) (key value : Bytes) : Option StreamId :=
  let id := { id with pairs := id.pairs + 1 }
  if key = [keyR] then if id.resource ≠ [] then none else some { id with resource := value }
  else if key = [keyM] then if id.mode ≠ [] then none else some { id with mode := value }
  else if key = [keyS] then if id.source ≠ [] then none else some { id with source := value }
  else some id

def pairLoop (id : StreamId) (p : Bytes) : Option StreamId :=
  if _h : p = [] then some id
  else
    let pair := p.takeWhile fun c => c ≠ comma
    if pair = [] then none
    else if equals ∉ pair then none
    else
      let key := pair.takeWhile fun c => c ≠ equals
      match store id key (pair.drop (key.length + 1)) with
      | none => none
      | some id =>
        if pair.length = p.length then some id
        -- trailing comma: empty final pair
        else if p.drop (pair.length + 1) = [] then none
        else pairLoop id (p.drop (pair.length + 1))
termination_by p.length
decreasing_by
  have := List.length_pos_of_ne_nil _h
  rw [List.length_drop]
  omega

def modeKind (mode : Bytes) : Mode :=
  if mode = ascii "publish" then .publish
  else if mode = ascii "request" then .request
  else .unknown

/-- What follows the split of the resource. -/
def finishSource (id : StreamId) : Option StreamId :=
  if id.source ≠ [] ∧ nameOk id.source false = false then none
  else some { id with modeKind := modeKind id.mode }

/-- What follows the loop. -/
def finish (id : StreamId) : Option StreamId :=
  if id.resource = [] then none
  else if nameOk id.resource true = false then none
  else if slash ∈ id.resource then
    let application := id.resource.takeWhile fun c => c ≠ slash
    let stream := id.resource.drop (application.length + 1)
    if nameOk application false = false ∨ nameOk stream false = false then none
    else finishSource { id with application, stream }
  else if nameOk id.resource false = false then none
  else finishSource { id with stream := id.resource }

def empty (raw : Bytes) : StreamId := ⟨raw, [], [], [], [], [], .unknown, 0⟩

def body (data : Bytes) : Bytes := if data.take 4 = mark then data.drop 4 else data

def parse (data : Bytes) : Option StreamId :=
  if data.length = 0 ∨ data.length > maxLength then none
  else (pairLoop (empty data) (body data)).bind finish

structure Pair where
  key : Bytes
  value : Bytes
  deriving DecidableEq, Repr

def Pair.text (p : Pair) : Bytes := p.key ++ equals :: p.value

structure Pair.Plain (p : Pair) : Prop where
  key : equals ∉ p.key ∧ comma ∉ p.key
  value : comma ∉ p.value

theorem Pair.Plain.text {p : Pair} (h : p.Plain) : comma ∉ p.text := by
  rw [Pair.text, List.mem_append, List.mem_cons, not_or, not_or]
  exact ⟨h.key.2, by decide, h.value⟩

structure Spelled (data : Bytes) (pairs : List Pair) : Prop where
  any : pairs ≠ []
  plain : ∀ p ∈ pairs, p.Plain
  text : body data = [comma].intercalate (pairs.map Pair.text)

def values (key : UInt8) (pairs : List Pair) : List Bytes :=
  (pairs.filter fun p => p.key = [key]).map Pair.value

def given (key : UInt8) (pairs : List Pair) : Bytes := (values key pairs).flatten

def Name (name : Bytes) : Prop :=
  0 < name.length ∧ name.length ≤ nameMax ∧ ∀ c ∈ name, nameByte c = true

inductive Resource : (resource application stream : Bytes) → Prop
  | plain {stream : Bytes} (h : Name stream) : Resource stream [] stream
  | path {application stream : Bytes} (happlication : Name application) (hstream : Name stream)
      (hlength : (application ++ slash :: stream).length ≤ nameMax) :
      Resource (application ++ slash :: stream) application stream

def Grammar (data : Bytes) (id : StreamId) : Prop :=
  ∃ pairs, Spelled data pairs ∧ (∀ key ∈ [keyR, keyM, keyS], (values key pairs).length ≤ 1) ∧
    Resource (given keyR pairs) id.application id.stream ∧
    (given keyS pairs = [] ∨ Name (given keyS pairs)) ∧
    id.raw = data ∧ id.resource = given keyR pairs ∧ id.mode = given keyM pairs ∧
    id.source = given keyS pairs ∧ id.modeKind = modeKind (given keyM pairs) ∧
    id.pairs = pairs.length

section Pieces

variable {sep : UInt8} {a b p : Bytes}

theorem not_mem_takeWhile (sep : UInt8) (p : Bytes) : sep ∉ p.takeWhile fun c => c ≠ sep := by
  intro hmem
  have := List.mem_takeWhile_imp hmem
  simp at this

theorem takeWhile_all (h : sep ∉ p) : (p.takeWhile fun c => c ≠ sep) = p := by
  refine List.takeWhile_eq_self_iff.mpr fun c hc => ?_
  have hne : c ≠ sep := fun heq => h (heq ▸ hc)
  simpa using hne

theorem takeWhile_sep (h : sep ∉ a) (b : Bytes) :
    ((a ++ sep :: b).takeWhile fun c => c ≠ sep) = a := by
  have hall : ∀ c ∈ a, (decide (c ≠ sep)) = true := by
    intro c hc
    have hne : c ≠ sep := fun heq => h (heq ▸ hc)
    simpa using hne
  rw [List.takeWhile_append_of_pos hall, List.takeWhile_cons_of_neg (by simp), List.append_nil]

theorem drop_sep (a b : Bytes) (sep : UInt8) : (a ++ sep :: b).drop (a.length + 1) = b := by
  rw [List.drop_length_add_append]
  rfl

theorem cut_at (h : sep ∈ p) :
    p = (p.takeWhile fun c => c ≠ sep) ++
      sep :: p.drop ((p.takeWhile fun c => c ≠ sep).length + 1) := by
  obtain ⟨a, b, hp, ha⟩ := List.eq_append_cons_of_mem h
  rw [hp, takeWhile_sep ha, drop_sep]

end Pieces

theorem Spelled.splitOn {data : Bytes} {pairs : List Pair} (h : Spelled data pairs) :
    (body data).splitOn comma = pairs.map Pair.text := by
  have hcomma : ∀ piece ∈ pairs.map Pair.text, comma ∉ piece := by
    intro piece hpiece
    obtain ⟨p, hp, rfl⟩ := List.mem_map.mp hpiece
    exact (h.plain p hp).text
  have hne : pairs.map Pair.text ≠ [] := fun hnil => h.any (List.map_eq_nil_iff.mp hnil)
  rw [h.text, List.splitOn_intercalate comma hcomma hne]

/-- One turn of the loop. -/
def pieceStep (id : StreamId) (piece : Bytes) : Option StreamId :=
  if piece = [] then none
  else if equals ∉ piece then none
  else
    store id (piece.takeWhile fun c => c ≠ equals)
      (piece.drop ((piece.takeWhile fun c => c ≠ equals).length + 1))

theorem pieceStep_nil (id : StreamId) : pieceStep id [] = none := rfl

/-- The first turn of the loop, with `rest` what is left behind the comma, if there is one. -/
theorem pairLoop_step (id : StreamId) {p : Bytes} (hp : p ≠ []) :
    pairLoop id p = (pieceStep id (p.takeWhile fun c => c ≠ comma)).bind fun id =>
      if (p.takeWhile fun c => c ≠ comma).length = p.length then some id
      else if p.drop ((p.takeWhile fun c => c ≠ comma).length + 1) = [] then none
      else pairLoop id (p.drop ((p.takeWhile fun c => c ≠ comma).length + 1)) := by
  rw [pairLoop, dif_neg hp]
  dsimp only
  generalize (p.takeWhile fun c => c ≠ comma) = piece
  unfold pieceStep
  by_cases hempty : piece = []
  · rw [if_pos hempty, if_pos hempty]
    rfl
  · by_cases hequals : equals ∉ piece
    · rw [if_neg hempty, if_neg hempty, if_pos hequals, if_pos hequals]
      rfl
    · rw [if_neg hempty, if_neg hempty, if_neg hequals, if_neg hequals]
      cases store id _ _ with
      | none => rfl
      | some id' => rfl

theorem pairLoop_eq (id : StreamId) {p : Bytes} (hp : p ≠ []) :
    pairLoop id p = (p.splitOn comma).foldlM pieceStep id := by
  induction hn : p.length using Nat.strong_induction_on generalizing id p with
  | _ n ih =>
    subst hn
    rw [pairLoop_step id hp]
    by_cases hcomma : comma ∈ p
    · have hcut := cut_at hcomma
      have hfree := not_mem_takeWhile comma p
      generalize (p.takeWhile fun c => c ≠ comma) = piece at hcut hfree ⊢
      generalize p.drop (piece.length + 1) = rest at hcut ⊢
      subst hcut
      rw [List.splitOn_append_cons_self_of_not_mem hfree, List.foldlM_cons]
      cases pieceStep id piece with
      | none => rfl
      | some id' =>
        have hlen : (piece ++ comma :: rest).length = piece.length + 1 + rest.length := by
          rw [List.length_append, List.length_cons]
          omega
        dsimp only [Option.bind_some, Option.bind_eq_bind]
        rw [if_neg (by omega)]
        split_ifs with hempty
        · rw [hempty, List.splitOn_nil, List.foldlM_cons, pieceStep_nil]
          rfl
        · exact ih rest.length (by omega) id' hempty rfl
    · rw [takeWhile_all hcomma, List.splitOn_eq_singleton hcomma, List.foldlM_cons]
      cases pieceStep id p with
      | none => rfl
      | some id' => exact if_pos rfl

theorem pieceStep_text (id : StreamId) {p : Pair} (hp : p.Plain) :
    pieceStep id p.text = store id p.key p.value := by
  have hne : p.text ≠ [] := List.append_ne_nil_of_right_ne_nil _ (List.cons_ne_nil _ _)
  have hequals : equals ∈ p.text := List.mem_append_right _ List.mem_cons_self
  rw [pieceStep, if_neg hne, if_neg (not_not_intro hequals), Pair.text, takeWhile_sep hp.key.1,
    drop_sep]

theorem pair_of_piece {id id' : StreamId} {piece : Bytes} (h : pieceStep id piece = some id')
    (hcomma : comma ∉ piece) : ∃ p : Pair, p.Plain ∧ p.text = piece := by
  rw [pieceStep] at h
  split_ifs at h with hempty hequals
  have hcut := cut_at hequals
  refine ⟨⟨_, _⟩, ⟨⟨not_mem_takeWhile equals piece, fun hmem => hcomma ?_⟩,
    fun hmem => hcomma ?_⟩, hcut.symm⟩
  · exact List.takeWhile_subset _ hmem
  · exact List.mem_of_mem_drop hmem

def storeAll (id : StreamId) (pairs : List Pair) : Option StreamId :=
  pairs.foldlM (fun id p => store id p.key p.value) id

theorem foldlM_texts {pairs : List Pair} (h : ∀ p ∈ pairs, p.Plain) (id : StreamId) :
    (pairs.map Pair.text).foldlM pieceStep id = storeAll id pairs := by
  induction pairs generalizing id with
  | nil => rfl
  | cons p rest ih =>
    rw [List.map_cons, List.foldlM_cons, pieceStep_text id (h p List.mem_cons_self), storeAll,
      List.foldlM_cons]
    cases store id p.key p.value with
    | none => rfl
    | some id' => exact ih (fun q hq => h q (List.mem_cons_of_mem _ hq)) id'

theorem pairs_of_pieces {pieces : List Bytes} (hcomma : ∀ piece ∈ pieces, comma ∉ piece)
    {id id' : StreamId} (h : pieces.foldlM pieceStep id = some id') :
    ∃ pairs : List Pair, (∀ p ∈ pairs, p.Plain) ∧ pairs.map Pair.text = pieces := by
  induction pieces generalizing id with
  | nil => exact ⟨[], fun p hp => absurd hp List.not_mem_nil, rfl⟩
  | cons piece rest ih =>
    rw [List.foldlM_cons] at h
    obtain ⟨mid, hmid, hrest⟩ := Option.bind_eq_some_iff.mp h
    obtain ⟨p, hp, htext⟩ := pair_of_piece hmid (hcomma piece List.mem_cons_self)
    obtain ⟨pairs, hpairs, hmap⟩ := ih (fun q hq => hcomma q (List.mem_cons_of_mem _ hq)) hrest
    refine ⟨p :: pairs, fun q hq => ?_, by rw [List.map_cons, htext, hmap]⟩
    rcases List.mem_cons.mp hq with rfl | hq
    · exact hp
    · exact hpairs q hq

theorem pairLoop_some_iff {data : Bytes} (id id' : StreamId) (hbody : body data ≠ []) :
    pairLoop id (body data) = some id' ↔
      ∃ pairs, Spelled data pairs ∧ storeAll id pairs = some id' := by
  rw [pairLoop_eq id hbody]
  constructor
  · intro h
    have hcomma := CString.not_mem_splitOn comma (body data)
    obtain ⟨pairs, hplain, htexts⟩ := pairs_of_pieces hcomma h
    refine ⟨pairs, ⟨?_, hplain, ?_⟩, ?_⟩
    · rintro rfl
      exact List.splitOn_ne_nil comma (body data) htexts.symm
    · rw [htexts, List.intercalate_splitOn]
    · rw [← foldlM_texts hplain, htexts]
      exact h
  · rintro ⟨pairs, hspelled, hstored⟩
    rw [hspelled.splitOn, foldlM_texts hspelled.plain]
    exact hstored

def Quiet (values : List Bytes) : Prop := ∀ v ∈ values.dropLast, v = []

theorem values_concat (key : UInt8) (pairs : List Pair) (p : Pair) :
    values key (pairs ++ [p]) =
      if p.key = [key] then values key pairs ++ [p.value] else values key pairs := by
  unfold values
  rw [List.filter_append, List.map_append]
  split_ifs with hkey
  · rw [List.filter_cons_of_pos (by simpa using hkey)]
    rfl
  · rw [List.filter_cons_of_neg (by simpa using hkey)]
    exact List.append_nil _

theorem quiet_concat_iff (key : UInt8) (pairs : List Pair) (v : Bytes) :
    Quiet (values key pairs ++ [v]) ↔ given key pairs = [] := by
  unfold Quiet given
  rw [List.dropLast_concat, List.flatten_eq_nil_iff]

theorem quiet_of_nil {key : UInt8} {pairs : List Pair} (h : given key pairs = []) :
    Quiet (values key pairs) :=
  fun v hv => List.flatten_eq_nil_iff.mp h v (List.dropLast_subset _ hv)

theorem storeAll_concat (id : StreamId) (pairs : List Pair) (p : Pair) :
    storeAll id (pairs ++ [p]) = (storeAll id pairs).bind fun id => store id p.key p.value := by
  unfold storeAll
  rw [List.foldlM_append]
  cases pairs.foldlM (fun id p => store id p.key p.value) id with
  | none => rfl
  | some mid =>
    change (List.foldlM (fun id p => store id p.key p.value) mid [p]) = store mid p.key p.value
    rw [List.foldlM_cons]
    cases store mid p.key p.value <;> rfl

def filled (raw : Bytes) (pairs : List Pair) : StreamId :=
  { empty raw with
    resource := given keyR pairs, mode := given keyM pairs, source := given keyS pairs
    pairs := pairs.length }

def AllQuiet (pairs : List Pair) : Prop := ∀ key ∈ [keyR, keyM, keyS], Quiet (values key pairs)

theorem given_concat_other {key : UInt8} {pairs : List Pair} {p : Pair} (h : p.key ≠ [key]) :
    given key (pairs ++ [p]) = given key pairs := by
  rw [given, values_concat, if_neg h, given]

theorem given_concat_same {key : UInt8} {pairs : List Pair} {p : Pair} (h : p.key = [key])
    (hempty : given key pairs = []) : given key (pairs ++ [p]) = p.value := by
  have hflat : (values key pairs).flatten = [] := hempty
  rw [given, values_concat, if_pos h, List.flatten_append, hflat, List.nil_append,
    List.flatten_singleton]

def Free (pairs : List Pair) (p : Pair) : Prop :=
  ∀ key ∈ [keyR, keyM, keyS], p.key = [key] → given key pairs = []

instance (pairs : List Pair) (p : Pair) : Decidable (Free pairs p) :=
  inferInstanceAs (Decidable (∀ key ∈ [keyR, keyM, keyS], p.key = [key] → given key pairs = []))

theorem free_iff {pairs : List Pair} {p : Pair} {key : UInt8} (hkey : key ∈ [keyR, keyM, keyS])
    (hp : p.key = [key]) : Free pairs p ↔ given key pairs = [] := by
  refine ⟨fun h => h key hkey hp, fun h key' _ hp' => ?_⟩
  rw [hp, List.singleton_inj] at hp'
  rw [← hp']
  exact h

theorem store_filled (raw : Bytes) (pairs : List Pair) (p : Pair) :
    store (filled raw pairs) p.key p.value =
      if Free pairs p then some (filled raw (pairs ++ [p])) else none := by
  have hlength : (pairs ++ [p]).length = pairs.length + 1 := by simp
  unfold store filled
  dsimp only
  rw [hlength]
  by_cases hr : p.key = [keyR]
  · have hm : p.key ≠ [keyM] := by rw [hr]; decide
    have hs : p.key ≠ [keyS] := by rw [hr]; decide
    rw [if_pos hr, given_concat_other hm, given_concat_other hs]
    by_cases hempty : given keyR pairs = []
    · rw [if_neg (not_not_intro hempty), if_pos ((free_iff (by simp) hr).mpr hempty),
        given_concat_same hr hempty]
    · rw [if_pos hempty, if_neg fun hfree => hempty ((free_iff (by simp) hr).mp hfree)]
  · by_cases hm : p.key = [keyM]
    · have hs : p.key ≠ [keyS] := by rw [hm]; decide
      rw [if_neg hr, if_pos hm, given_concat_other hr, given_concat_other hs]
      by_cases hempty : given keyM pairs = []
      · rw [if_neg (not_not_intro hempty), if_pos ((free_iff (by simp) hm).mpr hempty),
          given_concat_same hm hempty]
      · rw [if_pos hempty, if_neg fun hfree => hempty ((free_iff (by simp) hm).mp hfree)]
    · by_cases hs : p.key = [keyS]
      · rw [if_neg hr, if_neg hm, if_pos hs, given_concat_other hr, given_concat_other hm]
        by_cases hempty : given keyS pairs = []
        · rw [if_neg (not_not_intro hempty), if_pos ((free_iff (by simp) hs).mpr hempty),
            given_concat_same hs hempty]
        · rw [if_pos hempty, if_neg fun hfree => hempty ((free_iff (by simp) hs).mp hfree)]
      · have hfree : Free pairs p := by
          intro key hkey hp
          simp only [List.mem_cons, List.not_mem_nil, or_false] at hkey
          rcases hkey with rfl | rfl | rfl
          · exact absurd hp hr
          · exact absurd hp hm
          · exact absurd hp hs
        rw [if_neg hr, if_neg hm, if_neg hs, if_pos hfree, given_concat_other hr,
          given_concat_other hm, given_concat_other hs]

theorem allQuiet_concat_iff (pairs : List Pair) (p : Pair) :
    AllQuiet (pairs ++ [p]) ↔ AllQuiet pairs ∧ Free pairs p := by
  constructor
  · intro h
    refine ⟨fun key hkey => ?_, fun key hkey hp => ?_⟩
    · have hquiet := h key hkey
      rw [values_concat] at hquiet
      split_ifs at hquiet with hp
      · exact quiet_of_nil ((quiet_concat_iff key pairs p.value).mp hquiet)
      · exact hquiet
    · have hquiet := h key hkey
      rw [values_concat, if_pos hp] at hquiet
      exact (quiet_concat_iff key pairs p.value).mp hquiet
  · rintro ⟨hquiet, hfree⟩ key hkey
    rw [values_concat]
    split_ifs with hp
    · exact (quiet_concat_iff key pairs p.value).mpr (hfree key hkey hp)
    · exact hquiet key hkey

theorem storeAll_iff (raw : Bytes) (pairs : List Pair) (id : StreamId) :
    storeAll (empty raw) pairs = some id ↔ AllQuiet pairs ∧ id = filled raw pairs := by
  induction pairs using List.reverseRecOn generalizing id with
  | nil =>
    have hquiet : AllQuiet [] := fun key _ v hv => absurd hv List.not_mem_nil
    exact ⟨fun h => ⟨hquiet, (Option.some.inj h).symm⟩, fun h => congrArg some h.2.symm⟩
  | append_singleton pairs p ih =>
    rw [storeAll_concat, Option.bind_eq_some_iff, allQuiet_concat_iff]
    constructor
    · rintro ⟨mid, hmid, hstore⟩
      obtain ⟨hquiet, rfl⟩ := (ih mid).mp hmid
      rw [store_filled] at hstore
      split_ifs at hstore with hfree
      exact ⟨⟨hquiet, hfree⟩, (Option.some.inj hstore).symm⟩
    · rintro ⟨⟨hquiet, hfree⟩, rfl⟩
      refine ⟨filled raw pairs, (ih _).mpr ⟨hquiet, rfl⟩, ?_⟩
      rw [store_filled, if_pos hfree]

theorem nameOk_iff (name : Bytes) : nameOk name false = true ↔ Name name := by
  unfold nameOk Name
  split_ifs with hlength
  · refine iff_of_false not_false ?_
    rintro ⟨hpos, hle, -⟩
    omega
  · rw [List.all_eq_true]
    simp only [Bool.false_and, Bool.or_false]
    exact ⟨fun h => ⟨by omega, by omega, h⟩, fun h => h.2.2⟩

theorem nameOk_false (name : Bytes) : nameOk name false = false ↔ ¬ Name name := by
  rw [← nameOk_iff, Bool.not_eq_true]

theorem not_slash {name : Bytes} (h : Name name) : slash ∉ name := by
  intro hmem
  exact absurd (h.2.2 slash hmem) (by decide)

theorem Resource.nameOk {resource application stream : Bytes}
    (h : Resource resource application stream) : nameOk resource true = true := by
  cases h with
  | plain h =>
    obtain ⟨hpos, hle, hall⟩ := h
    rw [SrtStreamId.nameOk, if_neg (by omega), List.all_eq_true]
    intro c hc
    rw [hall c hc, Bool.true_or]
  | path happlication hstream hlength =>
    have hpos : (application ++ slash :: stream).length ≠ 0 := by simp
    rw [SrtStreamId.nameOk, if_neg (by omega), List.all_eq_true]
    intro c hc
    rcases List.mem_append.mp hc with hc | hc
    · rw [happlication.2.2 c hc, Bool.true_or]
    · rcases List.mem_cons.mp hc with rfl | hc
      · rfl
      · rw [hstream.2.2 c hc, Bool.true_or]

theorem nameOk_length {name : Bytes} {allowSlash : Bool} (h : nameOk name allowSlash = true) :
    name.length ≤ nameMax := by
  unfold nameOk at h
  split_ifs at h with hlength
  omega

theorem finishSource_iff (id id' : StreamId) :
    finishSource id = some id' ↔
      (id.source = [] ∨ Name id.source) ∧ id' = { id with modeKind := modeKind id.mode } := by
  unfold finishSource
  split_ifs with hbad
  · rw [nameOk_false] at hbad
    refine iff_of_false (fun h => by cases h) ?_
    rintro ⟨hempty | hname, -⟩
    · exact hbad.1 hempty
    · exact hbad.2 hname
  · rw [nameOk_false, not_and_or, not_not, not_not] at hbad
    exact ⟨fun h => ⟨hbad, (Option.some.inj h).symm⟩, fun h => congrArg some h.2.symm⟩

theorem finish_iff (id id' : StreamId) (happlication : id.application = []) :
    finish id = some id' ↔ ∃ application stream, Resource id.resource application stream ∧
      (id.source = [] ∨ Name id.source) ∧
      id' = { id with application, stream, modeKind := modeKind id.mode } := by
  unfold finish
  dsimp only
  constructor
  · intro h
    split_ifs at h with hempty hname hslash hparts hwhole
    · rw [not_or, nameOk_false, nameOk_false, not_not, not_not] at hparts
      rw [Bool.not_eq_false] at hname
      obtain ⟨hsource, rfl⟩ := (finishSource_iff _ _).mp h
      have hcut := cut_at hslash
      have hlength := nameOk_length hname
      refine ⟨_, _, ?_, hsource, rfl⟩
      have hpath := Resource.path hparts.1 hparts.2 (hcut ▸ hlength)
      rw [← hcut] at hpath
      exact hpath
    · rw [nameOk_false, not_not] at hwhole
      obtain ⟨hsource, rfl⟩ := (finishSource_iff _ _).mp h
      refine ⟨[], id.resource, Resource.plain hwhole, hsource, ?_⟩
      rw [happlication]
  · rintro ⟨application, stream, hresource, hsource, rfl⟩
    have hok := hresource.nameOk
    have hne : id.resource ≠ [] := by
      rintro hempty
      rw [hempty] at hok
      exact Bool.false_ne_true hok
    rw [if_neg hne, hok, if_neg (by simp)]
    generalize hid : id.resource = resource at hresource
    cases hresource with
    | plain h =>
      rw [if_neg (not_slash h), (nameOk_iff stream).mpr h, if_neg (by simp)]
      refine (finishSource_iff _ _).mpr ⟨hsource, ?_⟩
      rw [happlication]
    | path hfirst hsecond hlength =>
      rw [if_pos (List.mem_append_right _ List.mem_cons_self), takeWhile_sep (not_slash hfirst),
        drop_sep, (nameOk_iff application).mpr hfirst, (nameOk_iff stream).mpr hsecond,
        if_neg (by simp)]
      exact (finishSource_iff _ _).mpr ⟨hsource, rfl⟩

theorem Spelled.body_ne {data : Bytes} {pairs : List Pair} (h : Spelled data pairs) :
    body data ≠ [] := by
  intro hnil
  have hsplit := h.splitOn
  rw [hnil, List.splitOn_nil] at hsplit
  have hempty : [] ∈ pairs.map Pair.text := hsplit ▸ List.mem_singleton_self _
  obtain ⟨p, -, htext⟩ := List.mem_map.mp hempty
  exact List.append_ne_nil_of_right_ne_nil _ (List.cons_ne_nil _ _) htext

theorem parse_iff (data : Bytes) (id : StreamId) :
    parse data = some id ↔ data.length ≤ maxLength ∧ ∃ pairs, Spelled data pairs ∧
      AllQuiet pairs ∧ ∃ application stream, Resource (given keyR pairs) application stream ∧
      (given keyS pairs = [] ∨ Name (given keyS pairs)) ∧
      id = { filled data pairs with
        application, stream, modeKind := modeKind (given keyM pairs) } := by
  have hzero : data.length = 0 → body data = [] := by
    intro hlength
    rw [List.length_eq_zero_iff.mp hlength]
    rfl
  unfold parse
  by_cases hlength : data.length = 0 ∨ data.length > maxLength
  · rw [if_pos hlength]
    refine iff_of_false (fun h => by cases h) ?_
    rintro ⟨hle, pairs, hspelled, -⟩
    exact hspelled.body_ne (hzero (hlength.resolve_right (by omega)))
  · rw [if_neg hlength, Option.bind_eq_some_iff]
    rw [not_or, not_lt] at hlength
    constructor
    · rintro ⟨mid, hmid, hfinish⟩
      have hbody : body data ≠ [] := by
        intro hnil
        rw [hnil, pairLoop, dif_pos rfl] at hmid
        obtain rfl := Option.some.inj hmid
        cases hfinish
      obtain ⟨pairs, hspelled, hstored⟩ := (pairLoop_some_iff _ _ hbody).mp hmid
      obtain ⟨hquiet, rfl⟩ := (storeAll_iff data pairs mid).mp hstored
      obtain ⟨application, stream, hresource, hsource, hid⟩ := (finish_iff _ id rfl).mp hfinish
      exact ⟨hlength.2, pairs, hspelled, hquiet, application, stream, hresource, hsource, hid⟩
    · rintro ⟨-, pairs, hspelled, hquiet, application, stream, hresource, hsource, hid⟩
      refine ⟨filled data pairs, (pairLoop_some_iff _ _ hspelled.body_ne).mpr
        ⟨pairs, hspelled, (storeAll_iff data pairs _).mpr ⟨hquiet, rfl⟩⟩, ?_⟩
      exact (finish_iff _ id rfl).mpr ⟨application, stream, hresource, hsource, hid⟩

theorem Pair.Plain.text_inj {p q : Pair} (hp : p.Plain) (hq : q.Plain) (h : p.text = q.text) :
    p = q := by
  have hkey : p.key = q.key := by
    have htake := congrArg (fun l => l.takeWhile fun c => c ≠ equals) h
    dsimp only [Pair.text] at htake
    rw [takeWhile_sep hp.key.1, takeWhile_sep hq.key.1] at htake
    exact htake
  have hvalue : p.value = q.value := by
    rw [Pair.text, Pair.text, hkey] at h
    exact (List.cons.inj (List.append_cancel_left h)).2
  obtain ⟨key, value⟩ := p
  obtain ⟨key', value'⟩ := q
  dsimp only at hkey hvalue
  rw [hkey, hvalue]

theorem Spelled.unique {data : Bytes} {a b : List Pair} (ha : Spelled data a)
    (hb : Spelled data b) : a = b := by
  have htexts := ha.splitOn.symm.trans hb.splitOn
  have hplain := ha.plain
  have hplain' := hb.plain
  clear ha hb
  induction a generalizing b with
  | nil => exact (List.map_eq_nil_iff.mp htexts.symm).symm
  | cons p rest ih =>
    obtain ⟨q, more, rfl⟩ : ∃ q more, b = q :: more :=
      List.exists_cons_of_ne_nil fun hnil => by rw [hnil] at htexts; cases htexts
    rw [List.map_cons, List.map_cons] at htexts
    obtain ⟨hfirst, hrest⟩ := List.cons.inj htexts
    rw [(hplain p List.mem_cons_self).text_inj (hplain' q List.mem_cons_self) hfirst,
      ih hrest (fun x hx => hplain x (List.mem_cons_of_mem _ hx))
        fun x hx => hplain' x (List.mem_cons_of_mem _ hx)]

/-- None of the keys is given again after an empty value. -/
def NoneReopened (data : Bytes) : Prop :=
  ∀ pairs, Spelled data pairs → ∀ key ∈ [keyR, keyM, keyS], ∀ v ∈ (values key pairs).dropLast,
    v ≠ []

/-- Where no key is given again after an empty value, the parser accepts the stream ids of up to
512 bytes, with their parts, and nothing else. -/
theorem parse_grammar_iff {data : Bytes} (h : NoneReopened data) (id : StreamId) :
    parse data = some id ↔ data.length ≤ maxLength ∧ Grammar data id := by
  rw [parse_iff]
  refine and_congr_right fun _ => exists_congr fun pairs => and_congr_right fun hspelled => ?_
  have honce : AllQuiet pairs ↔ ∀ key ∈ [keyR, keyM, keyS], (values key pairs).length ≤ 1 := by
    refine forall_congr' fun key => forall_congr' fun hkey => ⟨fun hquiet => ?_, fun hle v hv => ?_⟩
    · have hnone : (values key pairs).dropLast = [] :=
        List.eq_nil_iff_forall_not_mem.mpr fun v hv => h pairs hspelled key hkey v hv (hquiet v hv)
      have hlength := congrArg List.length hnone
      rw [List.length_dropLast, List.length_nil] at hlength
      omega
    · have hlength := List.length_pos_of_mem hv
      rw [List.length_dropLast] at hlength
      omega
  rw [honce]
  refine and_congr_right fun _ => ⟨?_, ?_⟩
  · rintro ⟨application, stream, hresource, hsource, rfl⟩
    exact ⟨hresource, hsource, rfl, rfl, rfl, rfl, rfl, rfl⟩
  · rintro ⟨hresource, hsource, hraw, hfields⟩
    refine ⟨id.application, id.stream, hresource, hsource, ?_⟩
    obtain ⟨raw, resource, mode, source, application, stream, kind, count⟩ := id
    obtain ⟨rfl, rfl, rfl, rfl, rfl⟩ := hfields
    obtain rfl := hraw
    rfl

def canonical : Bytes := ascii "#!::r=live/news,m=publish,s=encoder-a"

def canonicalPairs : List Pair :=
  [⟨ascii "r", ascii "live/news"⟩, ⟨ascii "m", ascii "publish"⟩, ⟨ascii "s", ascii "encoder-a"⟩]

theorem canonical_spelled : Spelled canonical canonicalPairs := by
  refine ⟨List.cons_ne_nil _ _, fun p hp => ?_, by decide⟩
  simp only [canonicalPairs, List.mem_cons, List.not_mem_nil, or_false] at hp
  rcases hp with rfl | rfl | rfl
  · exact ⟨⟨by decide, by decide⟩, by decide⟩
  · exact ⟨⟨by decide, by decide⟩, by decide⟩
  · exact ⟨⟨by decide, by decide⟩, by decide⟩

theorem canonical_once : ∀ key ∈ [keyR, keyM, keyS], (values key canonicalPairs).length = 1 := by
  simp only [List.forall_mem_cons, List.not_mem_nil, false_implies, implies_true, and_true]
  exact ⟨rfl, rfl, rfl⟩

theorem canonical_accepted : parse canonical = some
    ⟨canonical, ascii "live/news", ascii "publish", ascii "encoder-a", ascii "live",
      ascii "news", .publish, 3⟩ := by
  have hopen : NoneReopened canonical := by
    intro pairs hspelled key hkey v hv
    rw [hspelled.unique canonical_spelled] at hv
    have hdrop := List.length_pos_of_mem hv
    rw [List.length_dropLast, canonical_once key hkey] at hdrop
    exact absurd hdrop (Nat.lt_irrefl 0)
  refine (parse_grammar_iff hopen _).mpr ⟨by decide, canonicalPairs, canonical_spelled,
    fun key hkey => (canonical_once key hkey).le, ?_, ?_, rfl, by decide, by decide, by decide,
    by decide, rfl⟩
  · exact @Resource.path (ascii "live") (ascii "news") ((nameOk_iff _).mp (by decide))
      ((nameOk_iff _).mp (by decide)) (by decide)
  · exact Or.inr ((nameOk_iff _).mp (by decide))

/-- A resource and an unknown key. -/
def withOther (value : Bytes) : Bytes := ascii "r=a,x=" ++ value

theorem withOther_grammar {value : Bytes} (h : comma ∉ value) : Grammar (withOther value)
    ⟨withOther value, ascii "a", [], [], [], ascii "a", .unknown, 2⟩ := by
  have hname : Name (ascii "a") := (nameOk_iff _).mp (by decide)
  have hmark : (withOther value).take 4 = ascii "r=a," := by
    have hlength : (ascii "r=a,").length = 4 := by decide
    rw [withOther, show ascii "r=a,x=" = ascii "r=a," ++ ascii "x=" by decide, List.append_assoc,
      ← hlength, List.take_left]
  have hbody : body (withOther value) = withOther value := by
    rw [body, hmark, if_neg (by decide)]
  have htext : withOther value = [comma].intercalate
      ([⟨ascii "r", ascii "a"⟩, ⟨ascii "x", value⟩].map Pair.text) := by
    rw [withOther, show ascii "r=a,x=" = ascii "r" ++ equals :: ascii "a" ++ comma :: ascii "x" ++
      [equals] by decide]
    simp [Pair.text, List.intercalate]
  refine ⟨[⟨ascii "r", ascii "a"⟩, ⟨ascii "x", value⟩],
    ⟨List.cons_ne_nil _ _, fun p hp => ?_, hbody.trans htext⟩, fun key hkey => ?_,
    Resource.plain hname, Or.inl rfl, rfl, rfl, rfl, rfl, rfl, rfl⟩
  · simp only [List.mem_cons, List.not_mem_nil, or_false] at hp
    rcases hp with rfl | rfl
    · exact ⟨⟨by decide, by decide⟩, by decide⟩
    · have hkey : equals ∉ ascii "x" ∧ comma ∉ ascii "x" := by decide
      exact ⟨hkey, h⟩
  · simp only [List.mem_cons, List.not_mem_nil, or_false] at hkey
    rcases hkey with rfl | rfl | rfl
    · exact Nat.le_refl 1
    · exact Nat.zero_le 1
    · exact Nat.zero_le 1

/-- With a value of 600 bytes the id is too long. -/
theorem long_refused :
    ¬ ∀ data, (∃ id, parse data = some id) ↔ ∃ id, Grammar data id := by
  intro h
  have hcomma : comma ∉ List.replicate 600 0x61 := by
    intro hmem
    exact absurd (List.eq_of_mem_replicate hmem) (by decide)
  have hlong : parse (withOther (List.replicate 600 0x61)) = none := by
    unfold parse
    refine if_pos (Or.inr ?_)
    rw [withOther, List.length_append, List.length_replicate]
    unfold maxLength
    omega
  obtain ⟨id, hid⟩ := (h _).mpr ⟨_, withOther_grammar hcomma⟩
  rw [hlong] at hid
  cases hid

end SrtStreamId
