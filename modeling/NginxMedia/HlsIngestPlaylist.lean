import NginxMedia.HlsIngestNames
import NginxMedia.StepRun

/-! Reading by the media playlist. A presentation gives every segment its media sequence
number; a snapshot of the playlist lists a window of it. The reader may have begun by name.
While a snapshot is read whole and the ring of names reaches back to where its window begins,
each call goes on after the segment returned last. -/
namespace HlsIngestPlaylist

open HlsIngest HlsIngestNames ByteString

structure Presentation where
  first : ℕ
  names : List Name
  nodup : names.Nodup
  acceptable : ∀ n ∈ names, segmentName n = true
  bounded : first + names.length ≤ 2 ^ 64

variable {p : Presentation} {r : Reader} {i j m q : ℕ} {n : Name}

def Presentation.segment (p : Presentation) (i : ℕ) : Option Name :=
  if i < p.first then none else p.names[i - p.first]?

theorem segment_some (h : p.segment i = some n) :
    p.first ≤ i ∧ p.names[i - p.first]? = some n := by
  unfold Presentation.segment at h
  split_ifs at h with hlt
  exact ⟨Nat.le_of_not_lt hlt, h⟩

theorem segment_add (p : Presentation) (k : ℕ) : p.segment (p.first + k) = p.names[k]? := by
  unfold Presentation.segment
  rw [if_neg (by omega), Nat.add_sub_cancel_left]

theorem segment_inj (hi : p.segment i = some n) (hj : p.segment j = some n) : i = j := by
  obtain ⟨hlei, hgeti⟩ := segment_some hi
  obtain ⟨hlej, hgetj⟩ := segment_some hj
  have hlen := (List.getElem?_eq_some_iff.mp hgeti).1
  have := (List.getElem?_inj hlen p.nodup).mp (hgeti.trans hgetj.symm)
  omega

theorem segment_lt (h : p.segment i = some n) : i < 2 ^ 64 := by
  obtain ⟨hle, hget⟩ := segment_some h
  have hlen := (List.getElem?_eq_some_iff.mp hget).1
  have := p.bounded
  omega

theorem segment_acceptable (h : p.segment i = some n) : segmentName n = true :=
  p.acceptable n (List.mem_of_getElem? (segment_some h).2)

def uris (ls : List Line) : List Name :=
  ls.filterMap fun line => match line with
    | .uri name => some name
    | _ => none

def baseOf (base : ℕ) (ls : List Line) : ℕ :=
  ls.foldl (fun base line => match line with
    | .sequence n => n
    | _ => base) base

/-- The text of a media playlist that lists the segments from `lo` up to `hi`: its media
sequence number ahead of the first URI, and an `#EXTINF` ahead of every URI. -/
structure Snapshot (p : Presentation) (text : List UInt8) (lo hi : ℕ) : Prop where
  starts : ascii "#EXTM3U" <+: text
  single : ¬ascii "#EXT-X-STREAM-INF" <:+: text
  noZero : ∀ c ∈ text, c ≠ 0
  le : lo ≤ hi
  listing : ∃ header body, (lines text).map lineOf = header ++ body ∧
    uris header = [] ∧ (∀ base, Line.sequence base ∉ body) ∧ baseOf 0 header = lo ∧
    (lo < hi → Line.extinf ∈ header) ∧
    (uris body).map some = (List.range' lo (hi - lo)).map p.segment

structure World where
  reader : Reader
  returned : List Name

structure Call where
  directory : Directory
  text : List UInt8
  lo : ℕ
  hi : ℕ

def step (w : World) (c : Call) : World :=
  { reader := (next w.reader c.directory nameMax).2
    returned :=
      match (next w.reader c.directory nameMax).1 with
      | .ok name => w.returned ++ [name]
      | _ => w.returned }

def Shows (p : Presentation) (w : World) (c : Call) : Prop :=
  (∃ f, choose w.reader c.directory.files = some f ∧ f.text = some c.text) ∧
    Snapshot p c.text c.lo c.hi

def Above (p : Presentation) (returned : List Name) (i : ℕ) : Prop :=
  ∀ j n, p.segment j = some n → n ∈ returned → j < i

structure TakenIn (p : Presentation) (m : ℕ) (w : World) (c : Call) : Prop where
  shown : Shows p w c
  whole : c.text.length ≤ playlistMax
  lists : c.lo < c.hi
  present : ∀ i n, c.lo ≤ i → i < c.hi → p.segment i = some n → Above p w.returned i →
    fits w.reader n = true ∧ n ∈ c.directory.readable
  reaches : w.reader.lastSeq = none → p.first + m ≤ c.lo + seenMax

/-- The reader has returned the first `m` segments, in order, from directories without a
playlist. -/
inductive ReadByName (p : Presentation) (directory : List UInt8) : ℕ → Reader → Prop where
  | new : ReadByName p directory 0 (Reader.new directory)
  | returned {m : ℕ} {r : Reader} {name : Name} (d : Directory) : ReadByName p directory m r →
      choose r d.files = none → (next r d nameMax).1 = .ok name → p.names[m]? = some name →
      ReadByName p directory (m + 1) (next r d nameMax).2
  | nothing {m : ℕ} {r : Reader} (d : Directory) : ReadByName p directory m r →
      choose r d.files = none → (∀ name, (next r d nameMax).1 ≠ .ok name) →
      ReadByName p directory m (next r d nameMax).2

def InOrder (p : Presentation) (returned : List Name) : Prop :=
  ∃ numbers : List ℕ, numbers.Pairwise (· < ·) ∧ returned.map some = numbers.map p.segment

def CaughtUp (p : Presentation) (w : World) (c : Call) : Prop :=
  ∀ i, c.lo ≤ i → i < c.hi → Above p w.returned i →
    ∃ n, p.segment i = some n ∧ n ∈ w.returned

structure RingOf (names : List Name) (r : Reader) : Prop where
  length : r.seen.length = min names.length seenMax
  next_eq : r.seenNext = if names.length < seenMax then 0 else names.length % seenMax
  recent : ∀ k, k < names.length → names.length ≤ k + seenMax →
    r.seen[k % seenMax]? = names[k]?
  old : ∀ n ∈ r.seen, n ∈ names

theorem RingOf.remember {names : List Name} (h : RingOf names r) (name : Name) :
    RingOf (names ++ [name]) (remember r name) := by
  have hlen := h.length
  have hnext := h.next_eq
  have hold : ∀ n ∈ (HlsIngest.remember r name).seen, n ∈ names ++ [name] := by
    intro n hn
    unfold HlsIngest.remember at hn
    split_ifs at hn
    · rcases List.mem_append.mp hn with hin | hin
      · exact List.mem_append_left _ (h.old n hin)
      · exact List.mem_append_right _ hin
    · rcases List.mem_or_eq_of_mem_set hn with hin | rfl
      · exact List.mem_append_left _ (h.old n hin)
      · exact List.mem_append_right _ (List.mem_singleton_self n)
  refine ⟨?_, ?_, ?_, hold⟩
  all_goals
    unfold HlsIngest.remember
    unfold seenMax at *
    rw [List.length_append, List.length_singleton]
  · split_ifs <;> simp only [List.length_append, List.length_singleton, List.length_set] <;> omega
  · split_ifs at hnext ⊢ <;> dsimp only <;> omega
  · intro k hk hrecent
    by_cases hfull : r.seen.length < 256
    · rw [if_pos hfull]
      dsimp only
      rcases Nat.lt_succ_iff_lt_or_eq.mp hk with hlt | heq
      · have hmod : k % 256 = k := Nat.mod_eq_of_lt (by omega)
        have hget := h.recent k hlt (by unfold seenMax; omega)
        unfold seenMax at hget
        rw [hmod] at hget ⊢
        rw [List.getElem?_append_left (by omega), List.getElem?_append_left hlt]
        exact hget
      · have hmod : k % 256 = r.seen.length := by omega
        rw [hmod, heq, List.getElem?_concat_length, List.getElem?_concat_length]
    · rw [if_neg hfull]
      dsimp only
      rcases Nat.lt_succ_iff_lt_or_eq.mp hk with hlt | heq
      · have hget := h.recent k hlt (by unfold seenMax; omega)
        unfold seenMax at hget
        rw [List.getElem?_set_ne (by split_ifs at hnext <;> omega),
          List.getElem?_append_left hlt]
        exact hget
      · have hslot : r.seenNext = k % 256 := by split_ifs at hnext <;> omega
        rw [hslot, List.getElem?_set_self (by omega), heq, List.getElem?_concat_length]

theorem RingOf.congr {names : List Name} {r' : Reader} (h : RingOf names r)
    (hseen : r'.seen = r.seen) (hnext : r'.seenNext = r.seenNext) : RingOf names r' := by
  obtain ⟨hl, hn, hr, ho⟩ := h
  rw [← hseen] at hl hr ho
  rw [← hnext] at hn
  exact ⟨hl, hn, hr, ho⟩

theorem RingOf.record {names : List Name} (h : RingOf names r) {name : Name}
    (hlen : name.length < nameMax) : RingOf (names ++ [name]) (record r name) := by
  rcases record_eq (r := r) hlen with heq | heq
  · rw [heq]
    exact h.remember name
  · rw [heq]
    exact (h.remember name).congr rfl rfl

theorem record_lastSeq {name : Name} : (record r name).lastSeq = r.lastSeq := by
  have hremember : (remember r name).lastSeq = r.lastSeq := by
    unfold remember
    split_ifs <;> rfl
  unfold record
  by_cases hlen : name.length ≥ nameMax
  · rw [if_pos hlen]
  · rw [if_neg hlen]
    dsimp only
    split_ifs
    · exact hremember
    · exact hremember

structure ByNameOnly (p : Presentation) (m : ℕ) (r : Reader) : Prop where
  le : m ≤ p.names.length
  ring : RingOf (p.names.take m) r
  lastSeq : r.lastSeq = none
  lastName : r.lastName = (p.names.take m).getLast?

theorem ReadByName.byNameOnly {directory : List UInt8} (h : ReadByName p directory m r) :
    ByNameOnly p m r := by
  induction h with
  | new =>
    refine ⟨Nat.zero_le _, ⟨rfl, rfl, ?_, ?_⟩, rfl, rfl⟩
    · intro k hk
      cases hk
    · intro n hn
      cases hn
  | @returned m r name d _ hnone hok hname ih =>
    have hplain : Plain Set.univ r d := ⟨hnone, fun _ _ => trivial⟩
    have hcases := nextByName_cases r d nameMax
    rw [next_plain hplain] at hok ⊢
    split_ifs at hok ⊢
    generalize nextByName r d nameMax = outcome at hok hcases ⊢
    cases hcases with
    | nothing answer hnot => exact absurd hok (hnot name)
    | returned name' hin =>
      obtain ⟨-, hsegment, hfresh⟩ := mem_unread.mp hin
      have heq : name' = name := by simpa using hok
      subst heq
      have hlen := segmentName_length hsegment
      have htake : p.names.take (m + 1) = p.names.take m ++ [name'] := by
        rw [List.take_add_one, hname]
        rfl
      have hlt := (List.getElem?_eq_some_iff.mp hname).1
      refine ⟨hlt, ?_, ?_, ?_⟩
      · rw [htake]
        exact ih.ring.record hlen
      · exact record_lastSeq.trans ih.lastSeq
      · rw [htake, record_lastName hlen (gt_of_unseen hfresh), List.getLast?_concat]
  | @nothing m r d _ hnone hnot ih =>
    have hplain : Plain Set.univ r d := ⟨hnone, fun _ _ => trivial⟩
    have hcases := nextByName_cases r d nameMax
    rw [next_plain hplain] at hnot ⊢
    split_ifs at hnot ⊢
    · exact ih
    · generalize nextByName r d nameMax = outcome at hnot hcases ⊢
      cases hcases with
      | nothing => exact ih
      | returned name => exact absurd rfl (hnot name)

variable {readable : List Name} {cap base seq : ℕ} {media : Bool} {rest : List Line}
variable {names : List Name}

theorem scan_header {header : List Line} (h : uris header = []) (body : List Line) :
    scan readable cap (header ++ body) base seq media r =
      scan readable cap body (baseOf base header) seq
        (media || decide (Line.extinf ∈ header)) r := by
  induction header generalizing base media with
  | nil => simp [baseOf]
  | cons line header ih =>
    cases line with
    | sequence n =>
      rw [List.cons_append, scan, ih h]
      simp [baseOf]
    | extinf =>
      rw [List.cons_append, scan, ih h]
      simp [baseOf]
    | tag =>
      rw [List.cons_append, scan_tag, ih h]
      simp [baseOf]
    | uri name => simp [uris] at h

theorem scan_body {body : List Line} (h : ∀ base, Line.sequence base ∉ body) :
    scan readable cap body base seq true r =
      scan readable cap ((uris body).map Line.uri) base seq true r := by
  induction body generalizing seq r with
  | nil => rfl
  | cons line body ih =>
    have htail : ∀ base, Line.sequence base ∉ body :=
      fun base hin => h base (List.mem_cons_of_mem _ hin)
    cases line with
    | sequence n => exact absurd List.mem_cons_self (h n)
    | extinf =>
      rw [scan, ih htail]
      rfl
    | tag =>
      rw [scan, ih htail]
      rfl
    | uri name =>
      have huris : (uris (Line.uri name :: body)).map Line.uri =
          Line.uri name :: (uris body).map Line.uri := rfl
      rw [huris, scan, scan]
      simp only [ih htail]

theorem scan_resume (hlt : base + seq < 2 ^ 64) (hset : r.lastSeq = none)
    (hname : r.lastName = some n) :
    scan readable cap (.uri n :: rest) base seq media r =
      scan readable cap rest base (seq + 1) media { r with lastSeq := some (base + seq) } := by
  rw [scan, Nat.mod_eq_of_lt hlt]
  exact if_pos ⟨hset, hname⟩

theorem scan_skip (hlt : base + seq < 2 ^ 64)
    (hnot : ¬(r.lastSeq = none ∧ r.lastName = some n))
    (hold : (∃ q, r.lastSeq = some q ∧ base + seq ≤ q) ∨ seen r n false = true) :
    scan readable cap (.uri n :: rest) base seq media r =
      scan readable cap rest base (seq + 1) media r := by
  rw [scan, Nat.mod_eq_of_lt hlt, if_neg hnot, if_neg]
  rcases hold with ⟨q, hq, hle⟩ | h
  · simp [hq, hle]
  · simp [h]

theorem scan_take (hlt : base + seq < 2 ^ 64)
    (hnot : ¬(r.lastSeq = none ∧ r.lastName = some n))
    (hnew : ∀ q, r.lastSeq = some q → q < base + seq)
    (hsegment : segmentName n = true) (hcap : n.length < cap) (hseen : seen r n false = false)
    (hthere : fits r n = true ∧ n ∈ readable) :
    scan readable cap (.uri n :: rest) base seq media r =
      (some n, media, record { r with
        lastSeq := some (base + seq)
        playlistSegments := r.playlistSegments + 1 } n) := by
  have hall : (r.lastSeq.all fun last => decide (base + seq > last)) = true := by
    cases hq : r.lastSeq with
    | none => rfl
    | some q => exact decide_eq_true (hnew q hq)
  rw [scan, Nat.mod_eq_of_lt hlt, if_neg hnot, if_pos, if_pos]
  · simp [hthere.1, hthere.2]
  · rw [hall]
    simp [hsegment, hcap, hseen]

theorem seen_false (r : Reader) (n : Name) : seen r n false = decide (n ∈ r.seen) := rfl

inductive Scanned (p : Presentation) (lo hi after : ℕ) (r : Reader) (left : Reader → Prop)
    (media : Bool) : Option Name × Bool × Reader → Prop where
  | returned (i : ℕ) (n : Name) : lo ≤ i → i < hi → after ≤ i → p.segment i = some n →
      Scanned p lo hi after r left media (some n, media,
        record { r with
          lastSeq := some i
          playlistSegments := r.playlistSegments + 1 } n)
  | nothing (r' : Reader) : left r' → (∀ i, lo ≤ i → i < hi → i < after) →
      Scanned p lo hi after r left media (none, media, r')

theorem Scanned.skip {lo hi after : ℕ} {left : Reader → Prop} {media : Bool}
    {outcome : Option Name × Bool × Reader} (hlt : lo < after)
    (h : Scanned p (lo + 1) hi after r left media outcome) :
    Scanned p lo hi after r left media outcome := by
  cases h with
  | returned i n hlo hhi hafter hseg => exact .returned i n (by omega) hhi hafter hseg
  | nothing r' hleft hall =>
    refine .nothing r' hleft fun i hlo hhi => ?_
    rcases Nat.eq_or_lt_of_le hlo with heq | hgt
    · omega
    · exact hall i hgt hhi

theorem Scanned.resumed {lo hi after q : ℕ} {left left' : Reader → Prop} {media : Bool}
    {outcome : Option Name × Bool × Reader}
    (h : Scanned p lo hi after { r with lastSeq := some q } left media outcome)
    (hleft : ∀ r', left r' → left' r') : Scanned p lo hi after r left' media outcome := by
  cases h with
  | returned i n hlo hhi hafter hseg => exact .returned i n hlo hhi hafter hseg
  | nothing r' hkept hall => exact .nothing r' (hleft r' hkept) hall

theorem window_cons {lo : ℕ} (h : (n :: names).map some =
    (List.range' lo (n :: names).length).map p.segment) :
    p.segment lo = some n ∧
      names.map some = (List.range' (lo + 1) names.length).map p.segment := by
  rw [List.length_cons, List.range'_succ, List.map_cons, List.map_cons] at h
  obtain ⟨hhead, htail⟩ := List.cons.inj h
  exact ⟨hhead.symm, htail⟩

def Present (p : Presentation) (r : Reader) (readable : List Name) (lo hi after : ℕ) : Prop :=
  ∀ i n, lo ≤ i → i < hi → after ≤ i → p.segment i = some n →
    fits r n = true ∧ n ∈ readable

theorem scan_after {q : ℕ} (hset : r.lastSeq = some q)
    (hring : ∀ n ∈ r.seen, ∃ j ≤ q, p.segment j = some n)
    (hnames : names.map some = (List.range' (base + seq) names.length).map p.segment)
    (hpresent : Present p r readable (base + seq) (base + seq + names.length) (q + 1)) :
    Scanned p (base + seq) (base + seq + names.length) (q + 1) r (fun r' => r' = r) media
      (scan readable nameMax (names.map Line.uri) base seq media r) := by
  induction names generalizing seq with
  | nil => exact .nothing r rfl fun i hlo hhi => absurd hhi (Nat.not_lt.mpr hlo)
  | cons n names ih =>
    obtain ⟨hseg, htail⟩ := window_cons hnames
    have hlt := segment_lt hseg
    have hnot : ¬(r.lastSeq = none ∧ r.lastName = some n) := by simp [hset]
    have hhi : base + seq + (n :: names).length = base + (seq + 1) + names.length := by
      rw [List.length_cons]
      omega
    rw [List.map_cons]
    by_cases hle : base + seq ≤ q
    · have hlater : Present p r readable (base + (seq + 1)) (base + (seq + 1) + names.length)
          (q + 1) := by
        intro i x hlo hhi' hafter
        exact hpresent i x (by omega) (by omega) hafter
      have hrest := @ih (seq + 1) htail hlater
      rw [scan_skip hlt hnot (Or.inl ⟨q, hset, hle⟩), hhi]
      exact hrest.skip (by omega)
    · have hunseen : seen r n false = false := by
        rw [seen_false, decide_eq_false_iff_not]
        intro hin
        obtain ⟨j, hj, hsegj⟩ := hring n hin
        have := segment_inj hseg hsegj
        omega
      have hnew : ∀ q', r.lastSeq = some q' → q' < base + seq := by
        intro q' hq'
        rw [hset] at hq'
        have := Option.some.inj hq'
        omega
      have hsegment := segment_acceptable hseg
      have hthere := hpresent (base + seq) n (Nat.le_refl _) (by simp) (by omega) hseg
      rw [scan_take hlt hnot hnew hsegment (segmentName_length hsegment) hunseen hthere]
      exact .returned _ n (Nat.le_refl _) (by simp) (by omega) hseg

/-- What a reader that has gone by name alone has in its ring and as its last name. -/
theorem ByNameOnly.seen (h : ByNameOnly p m r) (hseg : p.segment i = some n) :
    n ∈ r.seen → i < p.first + m := by
  intro hin
  obtain ⟨k, hk, hget⟩ := List.mem_iff_getElem.mp (h.ring.old n hin)
  have hkm : k < m := by
    rw [List.length_take] at hk
    omega
  have hsegk : p.segment (p.first + k) = some n := by
    rw [segment_add]
    rw [List.getElem_take] at hget
    rw [← hget]
    exact List.getElem?_eq_getElem _
  have := segment_inj hseg hsegk
  omega

theorem ByNameOnly.recalls (h : ByNameOnly p m r) (hseg : p.segment i = some n)
    (hlt : i < p.first + m) (hreach : p.first + m ≤ i + seenMax) : n ∈ r.seen := by
  obtain ⟨hle, hget⟩ := segment_some hseg
  have hm := h.le
  have hlen : (p.names.take m).length = m := by
    rw [List.length_take]
    omega
  have hrecent := h.ring.recent (i - p.first) (by omega) (by omega)
  rw [List.getElem?_take_of_lt (by omega), hget] at hrecent
  exact List.mem_of_getElem? hrecent

theorem ByNameOnly.last (h : ByNameOnly p m r) (hseg : p.segment i = some n) :
    r.lastName = some n ↔ i + 1 = p.first + m := by
  have hm := h.le
  obtain ⟨hle, hget⟩ := segment_some hseg
  rw [h.lastName, List.getLast?_eq_getElem?, List.length_take, Nat.min_eq_left hm]
  constructor
  · intro hlast
    have hpos : 0 < m := by
      by_contra hzero
      rw [show m = 0 by omega] at hlast
      simp at hlast
    rw [List.getElem?_take_of_lt (by omega), ← segment_add] at hlast
    have := segment_inj hseg hlast
    omega
  · intro heq
    rw [List.getElem?_take_of_lt (by omega), show m - 1 = i - p.first by omega]
    exact hget

theorem scan_before (h : ByNameOnly p m r) (hfirst : p.first ≤ base + seq)
    (hreach : p.first + m ≤ base + seq + seenMax)
    (hnames : names.map some = (List.range' (base + seq) names.length).map p.segment)
    (hpresent : Present p r readable (base + seq) (base + seq + names.length) (p.first + m)) :
    Scanned p (base + seq) (base + seq + names.length) (p.first + m) r
      (fun r' => r' = r ∨ 0 < m ∧ r' = { r with lastSeq := some (p.first + m - 1) }) media
      (scan readable nameMax (names.map Line.uri) base seq media r) := by
  induction names generalizing seq with
  | nil => exact .nothing r (Or.inl rfl) fun i hlo hhi => absurd hhi (Nat.not_lt.mpr hlo)
  | cons n names ih =>
    obtain ⟨hseg, htail⟩ := window_cons hnames
    have hlt := segment_lt hseg
    have hhi : base + seq + (n :: names).length = base + (seq + 1) + names.length := by
      rw [List.length_cons]
      omega
    have hlater : Present p r readable (base + (seq + 1)) (base + (seq + 1) + names.length)
        (p.first + m) := by
      intro i x hlo hhi' hafter
      exact hpresent i x (by omega) (by omega) hafter
    rw [List.map_cons]
    by_cases hlast : r.lastName = some n
    · -- the last name read: the playlist takes over here
      have heq := (h.last hseg).mp hlast
      have hq : base + seq + 1 = p.first + m := heq
      have hring : ∀ x ∈ r.seen, ∃ j ≤ base + seq, p.segment j = some x := by
        intro x hx
        obtain ⟨k, hk, hget⟩ := List.mem_iff_getElem.mp (h.ring.old x hx)
        rw [List.length_take] at hk
        refine ⟨p.first + k, by omega, ?_⟩
        rw [segment_add, ← hget, List.getElem_take]
        exact List.getElem?_eq_getElem _
      have hrest := @scan_after p { r with lastSeq := some (base + seq) } readable base (seq + 1)
        media names (base + seq) rfl hring htail (by rwa [← hq] at hlater)
      rw [scan_resume hlt h.lastSeq hlast, hhi, ← hq]
      apply Scanned.skip (Nat.lt_succ_self _)
      exact hrest.resumed fun r' hr' => Or.inr ⟨by omega, by rw [hr', Nat.add_sub_cancel]⟩
    · have hnot : ¬(r.lastSeq = none ∧ r.lastName = some n) := fun hboth => hlast hboth.2
      by_cases hold : base + seq < p.first + m
      · have hseen : seen r n false = true := by
          rw [seen_false, decide_eq_true_eq]
          exact h.recalls hseg hold hreach
        rw [scan_skip hlt hnot (Or.inr hseen), hhi]
        exact (@ih (seq + 1) (by omega) (by omega) htail hlater).skip hold
      · have hunseen : seen r n false = false := by
          rw [seen_false, decide_eq_false_iff_not]
          exact fun hin => hold (h.seen hseg hin)
        have hnew : ∀ q, r.lastSeq = some q → q < base + seq := by
          intro q hq
          rw [h.lastSeq] at hq
          cases hq
        have hsegment := segment_acceptable hseg
        have hthere := hpresent (base + seq) n (Nat.le_refl _) (by simp) (by omega) hseg
        rw [scan_take hlt hnot hnew hsegment (segmentName_length hsegment) hunseen hthere]
        exact .returned _ n (Nat.le_refl _) (by simp) (by omega) hseg

variable {w : World} {c : Call}

def answered : Option Name × Bool × Reader → Answer × Reader
  | (some name, _, r) => (.ok name, r)
  | (none, _, r) => (.declined, r)

theorem buffered_whole {text : List UInt8} (hlen : text.length ≤ playlistMax)
    (hzero : ∀ c ∈ text, c ≠ 0) : buffered text = text := by
  unfold buffered
  rw [List.take_of_length_le hlen]
  apply List.takeWhile_eq_self_iff.mpr
  intro c hc
  simpa using hzero c hc

theorem usable_whole {text : List UInt8} {lo hi : ℕ} (h : Snapshot p text lo hi)
    (hlen : text.length ≤ playlistMax) : usable text = true := by
  have hseven : 7 ≤ text.length := h.starts.length_le
  unfold usable
  rw [buffered_whole hlen h.noZero, List.take_of_length_le hlen]
  simp only [Bool.not_eq_true', decide_eq_false_iff_not, not_or, not_not, Nat.not_lt]
  exact ⟨hseven, h.starts, h.single⟩

theorem scan_media (names : List Name) (base seq : ℕ) (r : Reader) :
    (scan readable cap (names.map Line.uri) base seq true r).2.1 = true := by
  induction names generalizing seq r with
  | nil => rfl
  | cons n names ih =>
    rw [List.map_cons, scan]
    split_ifs
    · exact ih _ _
    · rfl
    · exact ih _ _
    · exact ih _ _

theorem next_scanned {d : Directory} {text : List UInt8} {outcome : Option Name × Bool × Reader}
    (htext : (choose r d.files).bind File.text = some text) (hopen : ¬d.opens = false)
    (halloc : ¬d.allocates = false) (husable : usable text = true)
    (hloop : scan d.readable cap ((lines (buffered text)).map lineOf) 0 0 false r = outcome)
    (hmedia : outcome.2.1 = true) : next r d cap = answered outcome := by
  obtain ⟨chosen, media, r'⟩ := outcome
  unfold next nextByPlaylist
  rw [htext, if_neg hopen]
  dsimp only at hmedia ⊢
  rw [if_neg halloc, if_neg (by simp [husable]), hloop, hmedia]
  cases chosen <;> rfl

theorem next_snapshot (h : TakenIn p m w c) :
    next w.reader c.directory nameMax = (.error, w.reader) ∨
      ∃ names : List Name, names.map some = (List.range' c.lo (c.hi - c.lo)).map p.segment ∧
        next w.reader c.directory nameMax =
          answered (scan c.directory.readable nameMax (names.map Line.uri) c.lo 0 true
            w.reader) := by
  obtain ⟨⟨f, hchoose, htext⟩, hsnap⟩ := h.shown
  obtain ⟨header, body, hlines, hheader, hbody, hbase, hextinf, hwindow⟩ := hsnap.listing
  have hmedia : (false || decide (Line.extinf ∈ header)) = true := by
    simpa using hextinf h.lists
  have hbind : (choose w.reader c.directory.files).bind File.text = some c.text := by
    rw [hchoose, Option.bind_some, htext]
  have hloop : scan c.directory.readable nameMax
      ((lines (buffered c.text)).map lineOf) 0 0 false w.reader =
      scan c.directory.readable nameMax ((uris body).map Line.uri) c.lo 0 true w.reader := by
    rw [buffered_whole h.whole hsnap.noZero, hlines, scan_header hheader, hbase, hmedia,
      scan_body hbody]
  by_cases hopen : c.directory.opens = false
  · left
    unfold next nextByPlaylist
    rw [if_pos hopen]
  · by_cases halloc : c.directory.allocates = false
    · left
      unfold next nextByPlaylist
      rw [if_neg hopen, hbind]
      dsimp only
      rw [if_pos halloc]
    · right
      exact ⟨uris body, hwindow, next_scanned hbind hopen halloc
        (usable_whole hsnap h.whole) hloop (scan_media _ _ _ _)⟩

inductive Inv (p : Presentation) (m : ℕ) (w : World) : Prop where
  | byName : ByNameOnly p m w.reader → w.returned = p.names.take m → Inv p m w
  | byPlaylist (numbers : List ℕ) (q : ℕ) : numbers.Pairwise (· < ·) →
      w.returned.map some = numbers.map p.segment → numbers.getLast? = some q →
      w.reader.lastSeq = some q → (∀ n ∈ w.reader.seen, n ∈ w.returned) → Inv p m w

theorem byName_numbers (h : m ≤ p.names.length) :
    (p.names.take m).map some = (List.range' p.first m).map p.segment := by
  apply List.ext_getElem?
  intro k
  rw [List.getElem?_map, List.getElem?_map]
  by_cases hk : k < m
  · rw [List.getElem?_take_of_lt hk, List.getElem?_range' hk, Nat.one_mul, Option.map_some,
      segment_add, List.getElem?_eq_getElem (by omega)]
    rfl
  · rw [List.getElem?_eq_none (by rw [List.length_take]; omega),
      List.getElem?_eq_none (by rw [List.length_range']; omega)]
    rfl

theorem Inv.inOrder (h : Inv p m w) : InOrder p w.returned := by
  cases h with
  | byName h hret =>
    refine ⟨List.range' p.first m, List.pairwise_lt_range', ?_⟩
    rw [hret]
    exact byName_numbers h.le
  | byPlaylist numbers q hsorted hret => exact ⟨numbers, hsorted, hret⟩

theorem number_of_mem {numbers : List ℕ} {returned : List Name}
    (h : returned.map some = numbers.map p.segment) (hn : n ∈ returned) :
    ∃ j ∈ numbers, p.segment j = some n := by
  have hin : some n ∈ numbers.map p.segment := by
    rw [← h]
    exact List.mem_map_of_mem hn
  obtain ⟨j, hj, hseg⟩ := List.mem_map.mp hin
  exact ⟨j, hj, hseg⟩

theorem mem_of_number {numbers : List ℕ} {returned : List Name}
    (h : returned.map some = numbers.map p.segment) (hj : j ∈ numbers) :
    ∃ n, p.segment j = some n ∧ n ∈ returned := by
  have hin : p.segment j ∈ returned.map some := by
    rw [h]
    exact List.mem_map_of_mem hj
  obtain ⟨n, hn, hseg⟩ := List.mem_map.mp hin
  exact ⟨n, hseg.symm, hn⟩

theorem le_last {numbers : List ℕ} (hsorted : numbers.Pairwise (· < ·))
    (hlast : numbers.getLast? = some q) : ∀ j ∈ numbers, j ≤ q := by
  intro j hj
  obtain ⟨before, rfl⟩ := List.getLast?_eq_some_iff.mp hlast
  rcases List.mem_append.mp hj with hin | hin
  · exact Nat.le_of_lt ((List.pairwise_append.mp hsorted).2.2 j hin q (by simp))
  · exact Nat.le_of_eq (List.mem_singleton.mp hin)

theorem record_seen {name : Name} {r' : Reader} (hseen : r'.seen = r.seen)
    (h : n ∈ (record r' name).seen) : n ∈ r.seen ∨ n = name := by
  rw [← hseen]
  exact mem_record h

theorem Inv.append {numbers : List ℕ} {name : Name} {r' : Reader}
    (hsorted : numbers.Pairwise (· < ·))
    (hret : w.returned.map some = numbers.map p.segment) (hbelow : ∀ j ∈ numbers, j < i)
    (hseg : p.segment i = some name) (hset : r'.lastSeq = some i)
    (hseen : ∀ n ∈ r'.seen, n ∈ w.returned ∨ n = name) :
    Inv p m ⟨r', w.returned ++ [name]⟩ := by
  refine .byPlaylist (numbers ++ [i]) i ?_ ?_ (by simp) hset ?_
  · rw [List.pairwise_append]
    refine ⟨hsorted, List.pairwise_singleton _ _, fun a ha b hb => ?_⟩
    rw [List.mem_singleton.mp hb]
    exact hbelow a ha
  · rw [List.map_append, List.map_append, hret, List.map_singleton, List.map_singleton, hseg]
  · intro n hn
    rcases hseen n hn with hin | rfl
    · exact List.mem_append_left _ hin
    · exact List.mem_append_right _ (List.mem_singleton_self n)

theorem step_error (h : (next w.reader c.directory nameMax) = (.error, w.reader)) :
    step w c = w := by
  unfold step
  rw [h]

theorem step_declined {r' : Reader}
    (h : (next w.reader c.directory nameMax) = (.declined, r')) :
    step w c = ⟨r', w.returned⟩ := by
  unfold step
  rw [h]

theorem step_ok {r' : Reader} (h : (next w.reader c.directory nameMax) = (.ok n, r')) :
    step w c = ⟨r', w.returned ++ [n]⟩ := by
  unfold step
  rw [h]

theorem window_length {names : List Name}
    (h : names.map some = (List.range' c.lo (c.hi - c.lo)).map p.segment) :
    names.length = c.hi - c.lo := by
  have := congrArg List.length h
  simpa using this

theorem first_le (ht : TakenIn p m w c) {names : List Name}
    (h : names.map some = (List.range' c.lo (c.hi - c.lo)).map p.segment) : p.first ≤ c.lo := by
  cases names with
  | nil =>
    have hlen := window_length h
    have := ht.lists
    simp only [List.length_nil] at hlen
    omega
  | cons n names =>
    rw [← window_length h] at h
    exact (segment_some (window_cons h).1).1

theorem Inv.step (h : Inv p m w) (ht : TakenIn p m w c) :
    Inv p m (step w c) ∧
      ((next w.reader c.directory nameMax).1 = .declined → CaughtUp p w c) := by
  rcases next_snapshot ht with herror | ⟨names, hwindow, hnext⟩
  · rw [step_error herror, herror]
    exact ⟨h, fun hdeclined => by cases hdeclined⟩
  have hlen := window_length hwindow
  have hle := ht.lists
  have hhi : c.lo + 0 + names.length = c.hi := by omega
  have hnames : names.map some =
      (List.range' (c.lo + 0) names.length).map p.segment := by
    rw [hlen]
    exact hwindow
  have hpresent : ∀ after, (∀ i, after ≤ i → Above p w.returned i) →
      Present p w.reader c.directory.readable (c.lo + 0) (c.lo + 0 + names.length) after := by
    intro after habove i n hlo hhi' hafter hseg
    exact ht.present i n hlo (by omega) hseg (habove i hafter)
  cases h with
  | byName h hret =>
    have hnumbers := byName_numbers h.le
    rw [← hret] at hnumbers
    have hbelow : ∀ j ∈ List.range' p.first m, j < p.first + m := by
      intro j hj
      have := List.mem_range'_1.mp hj
      omega
    have habove : ∀ i, p.first + m ≤ i → Above p w.returned i := by
      intro i hi j n hseg hin
      obtain ⟨j', hj', hseg'⟩ := number_of_mem hnumbers hin
      have := hbelow j' hj'
      have := segment_inj hseg hseg'
      omega
    have hscan : Scanned p (c.lo + 0) (c.lo + 0 + names.length) (p.first + m) w.reader _ true
        (scan c.directory.readable nameMax (names.map Line.uri) c.lo 0 true w.reader) :=
      scan_before h (first_le ht hwindow) (ht.reaches h.lastSeq) hnames (hpresent _ habove)
    generalize scan c.directory.readable nameMax (names.map Line.uri) c.lo 0 true w.reader =
      outcome at hscan hnext
    cases hscan with
    | returned i n hlo hhi' hafter hseg =>
      rw [step_ok hnext, hnext]
      refine ⟨Inv.append List.pairwise_lt_range' hnumbers
        (fun j hj => Nat.lt_of_lt_of_le (hbelow j hj) hafter) hseg record_lastSeq ?_,
        fun hdeclined => by cases hdeclined⟩
      intro x hx
      rcases record_seen rfl hx with hold | hnew
      · exact Or.inl (hret ▸ h.ring.old x hold)
      · exact Or.inr hnew
    | nothing r' hleft hall =>
      rw [step_declined hnext]
      constructor
      · rcases hleft with rfl | ⟨hpos, rfl⟩
        · exact .byName h hret
        · refine .byPlaylist (List.range' p.first m) (p.first + m - 1)
            List.pairwise_lt_range' hnumbers ?_ rfl fun n hn => hret ▸ h.ring.old n hn
          rw [List.getLast?_range', if_neg (by omega)]
      · intro _ i hlo hhi' _
        have hfirst := first_le ht hwindow
        have hlt := hall i hlo (by omega)
        exact mem_of_number hnumbers (List.mem_range'_1.mpr ⟨by omega, hlt⟩)
  | byPlaylist numbers q hsorted hret hlast hset hseen =>
    have hbelow := le_last hsorted hlast
    have habove : ∀ i, q + 1 ≤ i → Above p w.returned i := by
      intro i hi j n hseg hin
      obtain ⟨j', hj', hseg'⟩ := number_of_mem hret hin
      have := hbelow j' hj'
      have := segment_inj hseg hseg'
      omega
    have hring : ∀ n ∈ w.reader.seen, ∃ j ≤ q, p.segment j = some n := by
      intro n hn
      obtain ⟨j, hj, hseg⟩ := number_of_mem hret (hseen n hn)
      exact ⟨j, hbelow j hj, hseg⟩
    have hscan : Scanned p (c.lo + 0) (c.lo + 0 + names.length) (q + 1) w.reader _ true
        (scan c.directory.readable nameMax (names.map Line.uri) c.lo 0 true w.reader) :=
      scan_after hset hring hnames (hpresent _ habove)
    generalize scan c.directory.readable nameMax (names.map Line.uri) c.lo 0 true w.reader =
      outcome at hscan hnext
    cases hscan with
    | returned i n hlo hhi' hafter hseg =>
      rw [step_ok hnext, hnext]
      refine ⟨Inv.append hsorted hret
        (fun j hj => Nat.lt_of_le_of_lt (hbelow j hj) hafter) hseg record_lastSeq ?_,
        fun hdeclined => by cases hdeclined⟩
      intro x hx
      rcases record_seen rfl hx with hold | hnew
      · exact Or.inl (hseen x hold)
      · exact Or.inr hnew
    | nothing r' hleft hall =>
      rw [step_declined hnext, hleft]
      refine ⟨.byPlaylist numbers q hsorted hret hlast hset hseen, fun _ i hlo hhi' hgt => ?_⟩
      have hlt := hall i hlo (by omega)
      obtain ⟨n, hseg, hin⟩ := mem_of_number hret (List.mem_of_getLast? hlast)
      have := hgt q n hseg hin
      omega

/-- In every run whose snapshots are taken in, the segments come in strictly increasing media
sequence number, and a call declines only when the snapshot lists nothing further. -/
theorem playlist_once_in_order {directory : List UInt8} (hread : ReadByName p directory m r)
    {calls : List Call} (hm : StepRun.Meets step (TakenIn p m) ⟨r, p.names.take m⟩ calls) :
    InOrder p (calls.foldl step ⟨r, p.names.take m⟩).returned ∧
      ∀ first c rest, calls = first ++ c :: rest →
        (next (first.foldl step ⟨r, p.names.take m⟩).reader c.directory nameMax).1 = .declined →
          CaughtUp p (first.foldl step ⟨r, p.names.take m⟩) c := by
  have hstart : Inv p m ⟨r, p.names.take m⟩ := .byName hread.byNameOnly rfl
  have hrun : ∀ calls, StepRun.Meets step (TakenIn p m) ⟨r, p.names.take m⟩ calls →
      Inv p m (calls.foldl step ⟨r, p.names.take m⟩) := fun calls hmeets =>
    StepRun.invariant_of_meets (fun w c h ht => (h.step ht).1) hstart hmeets
  constructor
  · exact (hrun calls hm).inOrder
  · rintro first c rest rfl hdeclined
    obtain ⟨hfirst, hc, -⟩ := StepRun.meets_append.mp hm
    exact ((hrun first hfirst).step hc).2 hdeclined

def twoSegments : Presentation where
  first := 0
  names := [ascii "a.ts", ascii "b.ts"]
  nodup := by decide
  acceptable := by decide
  bounded := by decide

def upToFirst : List UInt8 := ascii "#EXTM3U\n#EXTINF:4,\na.ts\n"
def fromSecond : List UInt8 := ascii "#EXTINF:4,\nb.ts\n"

/-- The playlist of the two segments, with empty lines between them. -/
def playlist (blanks : ℕ) : List UInt8 := upToFirst ++ (List.replicate blanks 10 ++ fromSecond)

def directoryOf (text : List UInt8) : Directory where
  opens := true
  files := [⟨ascii "live.m3u8", some 0, some text⟩]
  allocates := true
  readable := twoSegments.names
  opensAgain := true
  names := []

def callOn (text : List UInt8) : Call := ⟨directoryOf text, text, 0, 2⟩

def reader : Reader := Reader.new (ascii "/in")

theorem lines_break {sep : UInt8} (hsep : (sep == 13 || sep == 10) = true) (a b : List UInt8) :
    lines (a ++ sep :: b) = lines a ++ lines b := by
  have hsplit := List.splitOnP_append_cons (p := fun c : UInt8 => c == 13 || c == 10) a b hsep
  unfold lines
  rw [hsplit, List.filter_append]

theorem lines_blanks (a : List UInt8) (blanks : ℕ) (b : List UInt8) :
    lines (a ++ 10 :: (List.replicate blanks 10 ++ b)) = lines a ++ lines b := by
  rw [lines_break (by decide)]
  congr 1
  induction blanks with
  | zero => rfl
  | succ blanks ih =>
    rw [List.replicate_succ, List.cons_append, ← List.nil_append (10 :: _),
      lines_break (by decide), ih]
    rfl

theorem lines_playlist (blanks : ℕ) :
    lines (playlist blanks) = [ascii "#EXTM3U", ascii "#EXTINF:4,", ascii "a.ts",
      ascii "#EXTINF:4,", ascii "b.ts"] := by
  have hfirst : upToFirst = ascii "#EXTM3U\n#EXTINF:4,\na.ts" ++ [10] := by decide
  unfold playlist
  rw [hfirst, List.append_assoc, List.singleton_append, lines_blanks]
  decide

theorem mem_playlist {blanks : ℕ} {c : UInt8} (h : c ∈ playlist blanks) : c ≠ 0 ∧ c ≠ 83 := by
  have hends : ∀ c ∈ upToFirst ++ fromSecond, c ≠ 0 ∧ c ≠ 83 := by decide +kernel
  rcases List.mem_append.mp h with hin | hin
  · exact hends c (List.mem_append_left _ hin)
  · rcases List.mem_append.mp hin with hin | hin
    · rw [(List.mem_replicate.mp hin).2]
      decide
    · exact hends c (List.mem_append_right _ hin)

theorem playlist_snapshot (blanks : ℕ) : Snapshot twoSegments (playlist blanks) 0 2 := by
  refine ⟨?_, ?_, fun c hc => (mem_playlist hc).1, by decide, ?_⟩
  · exact List.IsPrefix.trans (by decide) (List.prefix_append upToFirst _)
  · intro hmaster
    have hin : (83 : UInt8) ∈ playlist blanks := hmaster.subset (by decide)
    exact (mem_playlist hin).2 rfl
  · refine ⟨[.tag, .extinf], [.uri (ascii "a.ts"), .extinf, .uri (ascii "b.ts")], ?_, by decide,
      by simp, by decide, by decide, by decide⟩
    rw [lines_playlist]
    decide

theorem choose_live (r : Reader) (hr : r.directory = ascii "/in") (text : List UInt8) :
    choose r (directoryOf text).files = some ⟨ascii "live.m3u8", some 0, some text⟩ := by
  have hfits : fits r (ascii "live.m3u8") = true := by
    unfold fits
    rw [hr]
    decide
  have hplaylist : playlistName (ascii "live.m3u8") = true := by decide
  simp [choose, directoryOf, newest, hfits, hplaylist]

/-- A snapshot of two segments, read from the start. -/
theorem playlist_once_in_order_two :
    InOrder twoSegments ([callOn (playlist 0)].foldl step ⟨reader, []⟩).returned := by
  have htaken : TakenIn twoSegments 0 ⟨reader, []⟩ (callOn (playlist 0)) := by
    refine ⟨⟨⟨_, choose_live _ rfl _, rfl⟩, playlist_snapshot 0⟩, by decide, by decide, ?_,
      fun _ => by decide⟩
    intro i n _ _ hseg _
    have hin : n ∈ twoSegments.names := List.mem_of_getElem? (segment_some hseg).2
    have hfits : ∀ n ∈ twoSegments.names, fits reader n = true := by decide
    exact ⟨hfits n hin, hin⟩
  have hmeets : StepRun.Meets step (TakenIn twoSegments 0) ⟨reader, twoSegments.names.take 0⟩
      [callOn (playlist 0)] := ⟨htaken, trivial⟩
  exact (playlist_once_in_order .new hmeets).1

theorem buffered_cut {blanks : ℕ} (h : playlistMax ≤ blanks) :
    (playlist blanks).take playlistMax =
        upToFirst ++ List.replicate (playlistMax - upToFirst.length) 10 ∧
      buffered (playlist blanks) =
        upToFirst ++ List.replicate (playlistMax - upToFirst.length) 10 := by
  have htake : (playlist blanks).take playlistMax =
      upToFirst ++ List.replicate (playlistMax - upToFirst.length) 10 := by
    unfold playlist
    rw [List.take_append, List.take_of_length_le (by decide), List.take_append,
      List.take_replicate, List.length_replicate, Nat.min_eq_left (by omega),
      Nat.sub_eq_zero_of_le (show playlistMax - upToFirst.length ≤ blanks by omega),
      List.take_zero, List.append_nil]
  refine ⟨htake, ?_⟩
  unfold buffered
  rw [htake]
  apply List.takeWhile_eq_self_iff.mpr
  intro c hc
  rw [← htake] at hc
  simpa using (mem_playlist (List.mem_of_mem_take hc)).1

theorem usable_cut {blanks : ℕ} (h : playlistMax ≤ blanks) : usable (playlist blanks) = true := by
  have hheads : ascii "#EXTM3U" <+:
      upToFirst ++ List.replicate (playlistMax - upToFirst.length) 10 :=
    List.IsPrefix.trans (by decide) (List.prefix_append _ _)
  have hmaster : ¬ascii "#EXT-X-STREAM-INF" <:+:
      upToFirst ++ List.replicate (playlistMax - upToFirst.length) 10 := by
    intro hin
    have hletter := hin.subset (show (83 : UInt8) ∈ ascii "#EXT-X-STREAM-INF" by decide)
    rw [← (buffered_cut h).1] at hletter
    exact (mem_playlist (List.mem_of_mem_take hletter)).2 rfl
  unfold usable
  rw [(buffered_cut h).1, (buffered_cut h).2]
  simp only [Bool.not_eq_true', decide_eq_false_iff_not, not_or, not_not, Nat.not_lt]
  exact ⟨hheads.length_le, hheads, hmaster⟩

theorem lines_cut {blanks : ℕ} (h : playlistMax ≤ blanks) :
    lines (buffered (playlist blanks)) =
      [ascii "#EXTM3U", ascii "#EXTINF:4,", ascii "a.ts"] := by
  have hfirst : upToFirst = ascii "#EXTM3U\n#EXTINF:4,\na.ts" ++ [10] := by decide
  rw [(buffered_cut h).2, ← List.append_nil (List.replicate _ _), hfirst, List.append_assoc,
    List.singleton_append, lines_blanks]
  decide

theorem next_cut {blanks : ℕ} (h : playlistMax ≤ blanks) (r : Reader)
    (hr : r.directory = ascii "/in") :
    next r (directoryOf (playlist blanks)) nameMax =
      answered (scan twoSegments.names nameMax [.uri (ascii "a.ts")] 0 0 true r) := by
  have hlines : (lines (buffered (playlist blanks))).map lineOf =
      [.tag, .extinf, .uri (ascii "a.ts")] := by
    rw [lines_cut h]
    decide
  have htext : (choose r (directoryOf (playlist blanks)).files).bind File.text =
      some (playlist blanks) := by
    rw [choose_live r hr]
    rfl
  refine next_scanned htext Bool.noConfusion Bool.noConfusion (usable_cut h) ?_
    (scan_media [ascii "a.ts"] 0 0 r)
  rw [hlines]
  rfl

/-- The same playlist with 64 KiB of empty lines. The second segment is listed and there, but
the buffer ends before it. -/
theorem tail_never_read :
    let c := callOn (playlist 65536)
    let w := step ⟨reader, []⟩ c
    Shows twoSegments ⟨reader, []⟩ c ∧ w.returned = [ascii "a.ts"] ∧
      (next w.reader c.directory nameMax).1 = .declined ∧ ¬CaughtUp twoSegments w c := by
  have hlong : playlistMax ≤ 65536 := by decide
  have hfirst : next reader (directoryOf (playlist 65536)) nameMax =
      (.ok (ascii "a.ts"), record { reader with
        lastSeq := some 0
        playlistSegments := 1 } (ascii "a.ts")) := by
    rw [next_cut hlong reader rfl]
    decide
  have hstep : step ⟨reader, []⟩ (callOn (playlist 65536)) =
      ⟨record { reader with
        lastSeq := some 0
        playlistSegments := 1 } (ascii "a.ts"), [ascii "a.ts"]⟩ := step_ok hfirst
  dsimp only
  rw [hstep]
  refine ⟨⟨⟨_, choose_live _ rfl _, rfl⟩, playlist_snapshot _⟩, rfl, ?_, fun hcaught => ?_⟩
  · have hnext := next_cut hlong (record { reader with
      lastSeq := some 0
      playlistSegments := 1 } (ascii "a.ts")) (by decide)
    have hdeclined : (answered (scan twoSegments.names nameMax [.uri (ascii "a.ts")] 0 0 true
        (record { reader with
          lastSeq := some 0
          playlistSegments := 1 } (ascii "a.ts")))).1 = .declined := by
      decide
    exact (congrArg Prod.fst hnext).trans hdeclined
  · have habove : Above twoSegments [ascii "a.ts"] 1 := by
      intro j n hseg hin
      rw [List.mem_singleton.mp hin] at hseg
      have hzero : twoSegments.segment 0 = some (ascii "a.ts") := by decide
      have := segment_inj hseg hzero
      omega
    obtain ⟨n, hseg, hin⟩ := hcaught 1 (by decide) (by decide) habove
    rw [List.mem_singleton.mp hin] at hseg
    exact absurd hseg (by decide)

end HlsIngestPlaylist
