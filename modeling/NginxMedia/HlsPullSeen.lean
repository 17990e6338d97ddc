import NginxMedia.HlsPullUrl
import NginxMedia.RecentRing
import NginxMedia.SlidingWindows
import Mathlib.Data.List.Lex

/-! Which segments an HLS pull reader fetches, in `ngx_media_hls_pull.c`: it walks every snapshot
of the playlist, passes over what it takes for fetched, and remembers the highest name and the
last names it fetched. -/
namespace HlsPullSeen

open ByteString CString HlsPullUrl

abbrev Str := List UInt8

def names : ℕ := 64
def nameMax : ℕ := 256

/-- `ngx_memcmp()` on buffers of one length. -/
def memcmp : Str → Str → Ordering
  | x :: a, y :: b => if x < y then .lt else if y < x then .gt else memcmp a b
  | _, _ => .eq

def nameCmp (a b : Str) : Ordering :=
  let len := min a.length b.length
  (memcmp (a.take len) (b.take len)).then (compare a.length b.length)

abbrev Slot := Str × ℕ

def slotOf (name : Str) : Slot := (name.take nameMax, name.length)

structure Pull where
  base : Str
  last : Option Str
  ring : RecentRing.Ring Slot
  segments : ℕ
  failures : ℕ
  /-- What the demuxer was fed: an entry and its bytes. -/
  fed : List (Str × Str)

def opened (url : Str) : Pull := ⟨baseOf url, none, .empty, 0, 0, []⟩

def seen (pull : Pull) (name : Str) : Bool :=
  (match pull.last with
    | some last => nameCmp name last != .gt
    | none => false) ||
  pull.ring.slots.any fun entry => entry.2 == name.length && entry.1 == name.take nameMax

def record (pull : Pull) (name : Str) : Pull :=
  { pull with
    ring := pull.ring.push names (slotOf name)
    last :=
      if name.length < urlMax then
        match pull.last with
        | some last => if nameCmp name last = .gt then some name else some last
        | none => some name
      else pull.last }

structure Origin where
  get : Str → Option Str
  demux : Str → Bool

def trimEnd (line : Str) : Str := (line.reverse.dropWhile fun c => c == 13 || c == 32).reverse

/-- An entry of a playlist. -/
def fetch (o : Origin) (pull : Pull) (name : Str) : Pull :=
  if seen pull name then pull
  else
    match segmentUrl pull.base name with
    | none => pull
    | some url =>
      match o.get url with
      | none => { pull with failures := pull.failures + 1 }
      | some body =>
        let fed := { pull with fed := pull.fed ++ [(name, body)] }
        if o.demux body = false then { fed with failures := pull.failures + 1 }
        else { record fed name with segments := pull.segments + 1 }

def visit (o : Origin) (pull : Pull) (line : Str) : Pull :=
  if trimEnd line = [] ∨ (trimEnd line).head? = some 35 then pull
  else fetch o pull (trimEnd line)

def cutLine (text : Str) : Str × Str :=
  match strchr text 10 with
  | some i => (text.take i, text.drop (i + 1))
  | none => (text, [])

def walkLoop (o : Origin) : ℕ → Str → Pull → Pull
  | 0, _, pull => pull
  | fuel + 1, text, pull =>
    if text = [] then pull
    else walkLoop o fuel (cutLine text).2 (visit o pull (cutLine text).1)

/-- One round of `ngx_media_hls_pull_thread()`; every line takes at least one byte. -/
def poll (o : Origin) (pull : Pull) : Option Str → Pull
  | none => { pull with failures := pull.failures + 1 }
  | some text => walkLoop o text.length text pull

/-- A segment URI: the line of an entry without the blanks at its end. -/
abbrev Uri := {name : Str // name ≠ [] ∧ name.head? ≠ some 35 ∧ trimEnd name = name ∧
  (10 : UInt8) ∉ name ∧ (0 : UInt8) ∉ name}

/-- The blanks at the end of a line. -/
abbrev Pad := {pad : Str // ∀ c ∈ pad, c = 13 ∨ c = 32}

abbrev Other := {line : Str // (trimEnd line = [] ∨ (trimEnd line).head? = some 35) ∧
  (10 : UInt8) ∉ line ∧ (0 : UInt8) ∉ line}

inductive Line where
  | other (line : Other)
  | uri (name : Uri) (pad : Pad)

def Line.text : Line → Str
  | .other line => line.val
  | .uri name pad => name.val ++ pad.val

def Line.uri? : Line → Option Str
  | .other _ => none
  | .uri name _ => some name.val

def textOf (ended : Bool) : List Line → Str
  | [] => []
  | [line] => line.text ++ if ended then [10] else []
  | line :: next :: lines => line.text ++ 10 :: textOf ended (next :: lines)

structure Snapshot (name : ℕ → Uri) where
  window : SlidingWindows.Window
  lines : List Line
  listed : lines.filterMap Line.uri? = window.list.map fun i => (name i).val
  ended : Bool

def Snapshot.text {name : ℕ → Uri} (s : Snapshot name) : Str := textOf s.ended s.lines

structure History (name : ℕ → Uri) where
  snapshots : List (Snapshot name)
  slide : SlidingWindows.Slide (snapshots.map Snapshot.window)

def History.listed {name : ℕ → Uri} (h : History name) : List Str :=
  (SlidingWindows.covered (h.snapshots.map Snapshot.window)).map fun i => (name i).val

def willing (content : Str → Str) : Origin := ⟨fun url => some (content url), fun _ => true⟩

def followed (content : Str → Str) (url : Str) {name : ℕ → Uri} (h : History name) : Pull :=
  (h.snapshots.map fun s => some s.text).foldl (poll (willing content)) (opened url)

def Delivered (content : Str → Str) (url : Str) {name : ℕ → Uri} (h : History name) : Prop :=
  (followed content url h).fed =
    h.listed.map fun n => (n, content ((segmentUrl (baseOf url) n).getD []))

instance (content : Str → Str) (url : Str) {name : ℕ → Uri} (h : History name) :
    Decidable (Delivered content url h) := inferInstanceAs (Decidable (_ = _))

def rank (name : Str) : List ℕ := name.map UInt8.toNat

structure Fetchable (base : Str) (listed : List Str) : Prop where
  ascending : listed.Pairwise fun a b => rank a < rank b
  built : ∀ n ∈ listed, (segmentUrl base n).isSome
  apart : ∀ front n back, listed = front ++ n :: back →
    slotOf n ∉ RecentRing.recent names (front.map slotOf)

theorem nameCmp_nil (b : Str) : nameCmp [] b = compare 0 b.length := by
  simp [nameCmp, memcmp]

theorem nameCmp_nil_right (a : Str) : nameCmp a [] = compare a.length 0 := by
  cases a <;> simp [nameCmp, memcmp]

theorem nameCmp_cons (x y : UInt8) (a b : Str) : nameCmp (x :: a) (y :: b) =
    if x < y then .lt else if y < x then .gt else nameCmp a b := by
  have hmin : min (x :: a).length (y :: b).length = min a.length b.length + 1 := by
    simp only [List.length_cons]
    omega
  have hcompare : compare (x :: a).length (y :: b).length = compare a.length b.length := by
    simp only [List.length_cons, Nat.compare_eq_ite_lt]
    split_ifs <;> first | rfl | omega
  unfold nameCmp
  simp only [hmin, List.take_succ_cons, memcmp, hcompare]
  split_ifs <;> rfl

theorem nameCmp_gt_iff (a b : Str) : nameCmp a b = .gt ↔ rank b < rank a := by
  induction a generalizing b with
  | nil =>
    rw [nameCmp_nil]
    cases b with
    | nil => exact iff_of_false nofun (lt_irrefl (rank []))
    | cons y b => exact iff_of_false nofun (List.not_lt_nil _)
  | cons x a ih =>
    cases b with
    | nil =>
      rw [nameCmp_nil_right]
      exact iff_of_true (Nat.compare_eq_gt.mpr (Nat.succ_pos _)) (List.nil_lt_cons _ _)
    | cons y b =>
      rw [nameCmp_cons]
      simp only [rank, List.map_cons, List.cons_lt_cons_iff, ← UInt8.lt_iff_toNat_lt,
        UInt8.toNat_inj]
      split_ifs with hlt hgt
      · refine iff_of_false nofun ?_
        rintro (hyx | ⟨rfl, -⟩)
        · exact absurd hlt (UInt8.lt_asymm hyx)
        · exact absurd hlt (UInt8.lt_irrefl _)
      · exact iff_of_true rfl (Or.inl hgt)
      · have heq : y = x := UInt8.le_antisymm (UInt8.not_lt.mp hlt) (UInt8.not_lt.mp hgt)
        rw [ih]
        refine ⟨fun h => Or.inr ⟨heq, h⟩, ?_⟩
        rintro (hyx | ⟨-, h⟩)
        · exact absurd hyx hgt
        · exact h

variable {o : Origin} {pull : Pull}

theorem trimEnd_pad (line : Str) (pad : Pad) : trimEnd (line ++ pad.val) = trimEnd line := by
  have hall : ∀ c ∈ pad.val.reverse, (c == 13 || c == 32) = true := fun c hc => by
    simpa using pad.property c (List.mem_reverse.mp hc)
  rw [trimEnd, List.reverse_append, List.dropWhile_append_of_pos hall, trimEnd]

theorem visit_other (line : Other) : visit o pull line.val = pull := by
  unfold visit
  exact if_pos line.property.1

theorem visit_uri (name : Uri) (pad : Pad) :
    visit o pull (name.val ++ pad.val) = fetch o pull name.val := by
  obtain ⟨hne, hhead, htrim, -, -⟩ := name.property
  unfold visit
  rw [trimEnd_pad, htrim, if_neg (not_or.mpr ⟨hne, hhead⟩)]

theorem Line.plain (line : Line) : (10 : UInt8) ∉ line.text ∧ (0 : UInt8) ∉ line.text := by
  cases line with
  | other line => exact line.property.2
  | uri name pad =>
    obtain ⟨-, -, -, hnewline, hzero⟩ := name.property
    constructor
    · intro h
      rcases List.mem_append.mp h with h | h
      · exact hnewline h
      · rcases pad.property 10 h with h | h <;> cases h
    · intro h
      rcases List.mem_append.mp h with h | h
      · exact hzero h
      · rcases pad.property 0 h with h | h <;> cases h

theorem cutLine_newline {line rest : Str} (h : (0 : UInt8) ∉ line ++ 10 :: rest)
    (hline : (10 : UInt8) ∉ line) : cutLine (line ++ 10 :: rest) = (line, rest) := by
  unfold cutLine
  rw [strchr_first h hline]
  dsimp only
  rw [List.take_left, List.drop_append, List.drop_of_length_le (Nat.le_succ _),
    Nat.add_sub_cancel_left]
  rfl

theorem cutLine_last {line : Str} (h : (10 : UInt8) ∉ line) : cutLine line = (line, []) := by
  unfold cutLine
  rw [strchr_none h]

theorem textOf_plain (ended : Bool) (lines : List Line) : (0 : UInt8) ∉ textOf ended lines := by
  induction lines with
  | nil => exact List.not_mem_nil
  | cons line lines ih =>
    cases lines with
    | nil =>
      cases ended <;> simp [textOf, line.plain.2]
    | cons next lines =>
      rw [textOf]
      simp [line.plain.2, ih]

theorem walkLoop_lines (ended : Bool) {lines : List Line} {fuel : ℕ}
    (hfuel : (textOf ended lines).length ≤ fuel) : walkLoop o fuel (textOf ended lines) pull =
      lines.foldl (fun pull line => visit o pull line.text) pull := by
  induction lines generalizing fuel pull with
  | nil => cases fuel <;> rfl
  | cons line lines ih =>
    have hempty : visit o pull [] = pull := by
      unfold visit
      exact if_pos (Or.inl rfl)
    have hend : ∀ fuel pull, walkLoop o fuel [] pull = pull := fun fuel pull => by
      cases fuel <;> rfl
    have hzero := textOf_plain ended (line :: lines)
    cases lines with
    | nil =>
      rw [List.foldl_cons, List.foldl_nil]
      cases ended with
      | true =>
        have htext : textOf true [line] = line.text ++ 10 :: [] := rfl
        rw [htext] at hfuel hzero ⊢
        obtain ⟨n, rfl⟩ : ∃ n, fuel = n + 1 := by
          rw [List.length_append, List.length_singleton] at hfuel
          exact ⟨fuel - 1, by omega⟩
        rw [walkLoop, if_neg (by simp), cutLine_newline hzero line.plain.1, hend]
      | false =>
        have htext : textOf false [line] = line.text := List.append_nil _
        rw [htext] at hfuel ⊢
        by_cases hnil : line.text = []
        · rw [hnil, hend, hempty]
        · obtain ⟨n, rfl⟩ : ∃ n, fuel = n + 1 := by
            have := List.length_pos_iff.mpr hnil
            exact ⟨fuel - 1, by omega⟩
          rw [walkLoop, if_neg hnil, cutLine_last line.plain.1, hend]
    | cons next lines =>
      rw [textOf] at hfuel hzero ⊢
      obtain ⟨n, rfl⟩ : ∃ n, fuel = n + 1 := by
        rw [List.length_append, List.length_cons] at hfuel
        exact ⟨fuel - 1, by omega⟩
      rw [walkLoop, if_neg (by simp), cutLine_newline hzero line.plain.1, List.foldl_cons]
      refine ih ?_
      rw [List.length_append, List.length_cons] at hfuel
      omega

theorem poll_text (ended : Bool) (lines : List Line) :
    poll o pull (some (textOf ended lines)) = (lines.filterMap Line.uri?).foldl (fetch o) pull := by
  rw [poll, walkLoop_lines ended (Nat.le_refl _)]
  induction lines generalizing pull with
  | nil => rfl
  | cons line lines ih =>
    rw [List.foldl_cons, ih]
    cases line with
    | other line =>
      have hskip : visit o pull (Line.other line).text = pull := visit_other line
      rw [hskip]
      rfl
    | uri name pad =>
      have hname : visit o pull (Line.uri name pad).text = fetch o pull name.val :=
        visit_uri name pad
      rw [hname]
      rfl

theorem Fetchable.front {base : Str} {l m : List Str} (h : Fetchable base (l ++ m)) :
    Fetchable base l := by
  refine ⟨(List.pairwise_append.mp h.ascending).1,
    fun n hn => h.built n (List.mem_append_left m hn),
    fun front n back hsplit => h.apart front n (back ++ m) ?_⟩
  rw [hsplit, List.append_assoc, List.cons_append]

theorem fetchable_concat {base : Str} {l : List Str} {n : Str} : Fetchable base (l ++ [n]) ↔
    Fetchable base l ∧ (∀ e ∈ l, rank e < rank n) ∧ (segmentUrl base n).isSome ∧
      slotOf n ∉ RecentRing.recent names (l.map slotOf) := by
  constructor
  · intro h
    exact ⟨h.front, fun e he => (List.pairwise_append.mp h.ascending).2.2 e he n List.mem_cons_self,
      h.built n (List.mem_append_right l List.mem_cons_self), h.apart l n [] rfl⟩
  · rintro ⟨h, hlast, hbuilt, hslot⟩
    refine ⟨?_, fun e he => ?_, fun front e back hsplit => ?_⟩
    · refine List.pairwise_append.mpr
        ⟨h.ascending, List.pairwise_singleton _ _, fun e he m hm => ?_⟩
      rw [List.mem_singleton.mp hm]
      exact hlast e he
    · rcases List.mem_append.mp he with he | he
      · exact h.built e he
      · rw [List.mem_singleton.mp he]
        exact hbuilt
    · rcases List.eq_nil_or_concat back with rfl | ⟨back, last, rfl⟩
      · obtain ⟨rfl, hn⟩ := List.append_inj' hsplit rfl
        obtain rfl := List.singleton_inj.mp hn
        exact hslot
      · rw [List.concat_eq_append, ← List.cons_append, ← List.append_assoc] at hsplit
        obtain ⟨hl, -⟩ := List.append_inj' hsplit rfl
        exact h.apart front e back hl

theorem fetchable_selective (base : Str) : SlidingWindows.Selective (Fetchable base) := by
  refine ⟨⟨List.Pairwise.nil, nofun, fun front n back h => ?_⟩, Fetchable.front, fun h hmem => ?_⟩
  · exact absurd h.symm (by simp)
  · exact absurd ((fetchable_concat.mp h).2.1 _ hmem) (lt_irrefl _)

structure Remembers (content : Str → Str) (url : Str) (pull : Pull) (l : List Str) : Prop where
  base : pull.base = baseOf url
  last : pull.last = l.getLast?
  ring : RecentRing.Holds names pull.ring (l.map slotOf)
  good : Fetchable (baseOf url) l
  fed : pull.fed = l.map fun n => (n, content ((segmentUrl (baseOf url) n).getD []))

variable {content : Str → Str} {url : Str} {l : List Str}

theorem opened_remembers (content : Str → Str) (url : Str) :
    Remembers content url (opened url) [] :=
  ⟨rfl, rfl, RecentRing.holds_empty (by decide), (fetchable_selective _).empty, rfl⟩

theorem last_highest (hl : l.Pairwise fun a b => rank a < rank b) {last : Str}
    (hlast : l.getLast? = some last) {n : Str} :
    rank last < rank n ↔ ∀ e ∈ l, rank e < rank n := by
  obtain ⟨init, rfl⟩ := List.getLast?_eq_some_iff.mp hlast
  constructor
  · intro h e he
    rcases List.mem_append.mp he with he | he
    · exact lt_trans ((List.pairwise_append.mp hl).2.2 e he last List.mem_cons_self) h
    · rw [List.mem_singleton.mp he]
      exact h
  · exact fun h => h last (List.mem_append_right init List.mem_cons_self)

theorem Remembers.seen_iff (h : Remembers content url pull l) (n : Str) :
    seen pull n = false ↔ (∀ e ∈ l, rank e < rank n) ∧
      slotOf n ∉ RecentRing.recent names (l.map slotOf) := by
  have hring : (pull.ring.slots.any fun entry =>
      entry.2 == n.length && entry.1 == n.take nameMax) = false ↔
      slotOf n ∉ RecentRing.recent names (l.map slotOf) := by
    rw [← h.ring.mem, List.any_eq_false]
    constructor
    · intro hnone hmem
      exact hnone _ hmem (by simp [slotOf])
    · rintro hmem ⟨first, len⟩ hentry heq
      simp only [Bool.and_eq_true, beq_iff_eq] at heq
      obtain ⟨rfl, rfl⟩ := heq
      exact hmem hentry
  unfold seen
  rw [Bool.or_eq_false_iff, hring, h.last]
  refine and_congr_left fun _ => ?_
  cases hlast : l.getLast? with
  | none =>
    rw [List.getLast?_eq_none_iff] at hlast
    subst hlast
    exact iff_of_true rfl nofun
  | some last =>
    dsimp only
    rw [bne_eq_false_iff_eq, nameCmp_gt_iff]
    exact last_highest h.good.ascending hlast

theorem Remembers.fetch (h : Remembers content url pull l) (n : Str) :
    Remembers content url (fetch (willing content) pull n)
      (SlidingWindows.accept (Fetchable (baseOf url)) l n) := by
  have hseen := h.seen_iff n
  unfold HlsPullSeen.fetch SlidingWindows.accept
  rw [h.base]
  split_ifs with hold hgood hgood
  · -- passed over
    have := hseen.mpr ⟨(fetchable_concat.mp hgood).2.1, (fetchable_concat.mp hgood).2.2.2⟩
    rw [this] at hold
    cases hold
  · exact h
  · obtain ⟨-, hlast, hbuilt, hslot⟩ := fetchable_concat.mp hgood
    obtain ⟨target, htarget⟩ := Option.isSome_iff_exists.mp hbuilt
    have hlength : n.length < urlMax := by
      by_contra hge
      rw [segmentUrl, if_pos (Nat.le_of_not_lt hge)] at htarget
      cases htarget
    rw [htarget]
    refine ⟨rfl, ?_, ?_, hgood, ?_⟩
    · change (if n.length < urlMax then _ else _) = _
      rw [if_pos hlength, List.getLast?_concat]
      cases hpull : pull.last with
      | none => rfl
      | some last =>
        dsimp only
        have hgt : nameCmp n last = .gt :=
          (nameCmp_gt_iff n last).mpr
            ((last_highest h.good.ascending (h.last.symm.trans hpull)).mpr hlast)
        rw [if_pos hgt]
    · rw [List.map_append]
      exact h.ring.push (slotOf n)
    · change pull.fed ++ [(n, content target)] = _
      rw [h.fed, List.map_append, List.map_singleton, htarget]
      rfl
  · -- no URL can be built
    have hnew := hseen.mp (Bool.eq_false_iff.mpr hold)
    have hnone : segmentUrl (baseOf url) n = none := by
      rw [← Option.not_isSome_iff_eq_none]
      exact fun hbuilt => hgood (fetchable_concat.mpr ⟨h.good, hnew.1, hbuilt, hnew.2⟩)
    rw [hnone]
    exact h

theorem Remembers.fetches (ns : List Str) (h : Remembers content url pull l) :
    Remembers content url (ns.foldl (HlsPullSeen.fetch (willing content)) pull)
      (ns.foldl (SlidingWindows.accept (Fetchable (baseOf url))) l) := by
  induction ns generalizing pull l with
  | nil => exact h
  | cons n ns ih => exact ih (h.fetch n)

theorem Remembers.polls {name : ℕ → Uri} (snapshots : List (Snapshot name))
    (h : Remembers content url pull l) :
    Remembers content url
      ((snapshots.map fun s => some s.text).foldl (poll (willing content)) pull)
      (((snapshots.map Snapshot.window).flatMap fun w => w.list.map fun i => (name i).val).foldl
        (SlidingWindows.accept (Fetchable (baseOf url))) l) := by
  induction snapshots generalizing pull l with
  | nil => exact h
  | cons s snapshots ih =>
    have hround := h.fetches (s.lines.filterMap Line.uri?)
    rw [← poll_text s.ended s.lines, s.listed] at hround
    rw [List.map_cons, List.map_cons, List.foldl_cons, List.flatMap_cons, List.foldl_append]
    exact ih hround

/-- The reader fetches every listed segment, in order and once, exactly when the listed names
ascend as strings, each has a URL, and none has the length and the first bytes of one of the last
names before it. -/
theorem segments_fetched_iff (content : Str → Str) (url : Str) {name : ℕ → Uri} (h : History name) :
    Delivered content url h ↔ Fetchable (baseOf url) h.listed := by
  have hend := (opened_remembers content url).polls h.snapshots
  rw [History.listed,
    ← SlidingWindows.foldl_accept_iff (fetchable_selective (baseOf url)) _ h.slide]
  unfold Delivered followed
  rw [hend.fed]
  constructor
  · intro heq
    have hnames := congrArg (List.map Prod.fst) heq
    rw [List.map_map, List.map_map] at hnames
    exact (List.map_id _).symm.trans (hnames.trans (List.map_id _))
  · intro heq
    rw [heq]
    rfl

def uriOf (text : String) (h : ascii text ≠ [] ∧ (ascii text).head? ≠ some 35 ∧
    trimEnd (ascii text) = ascii text ∧ (10 : UInt8) ∉ ascii text ∧ (0 : UInt8) ∉ ascii text) :
    Uri := ⟨ascii text, h⟩

/-- A playlist whose numbers gain a digit. -/
def counted (i : ℕ) : Uri :=
  if i = 0 then uriOf "index9.ts" (by decide +kernel) else uriOf "index10.ts" (by decide +kernel)

def bothListed : History counted where
  snapshots := [⟨⟨0, 2⟩, [.uri (counted 0) ⟨[], nofun⟩, .uri (counted 1) ⟨[], nofun⟩], rfl, true⟩]
  slide := List.pairwise_singleton _ _

theorem tenth_skipped : ¬ Delivered (fun url => url) (ascii "http://o/p.m3u8") bothListed := by
  decide +kernel

end HlsPullSeen
