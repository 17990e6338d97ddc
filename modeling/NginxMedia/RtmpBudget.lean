import Mathlib.Algebra.Order.BigOperators.Group.Finset
import NginxMedia.RtmpReader

/-! The memory a peer can make the chunk reader hold: what each chunk stream has allocated,
the sum the reader keeps of it, and the bounds of every copy of the feed loop. -/
namespace RtmpBudget

open RtmpReader MediaTypes

def allocatedAt (r : Reader) (csid : ℕ) : ℕ :=
  match r.chunks csid with
  | some cs => cs.allocated
  | none => 0

structure CsSound (limit : ℕ) (cs : ChunkStream) : Prop where
  free : cs.payload = none → cs.allocated = 0
  held : cs.payload.isSome → cs.allocated = cs.length ∧ cs.received ≤ cs.length ∧
    cs.length ≤ limit

def Accounted (r : Reader) : Prop :=
  ∃ ids : Finset ℕ, (∀ i, i ∈ ids ↔ (r.chunks i).isSome) ∧ ids.card = r.used ∧
    r.buffered = ∑ i ∈ ids, allocatedAt r i

structure Sound (r : Reader) : Prop where
  accounted : Accounted r
  slots : r.used ≤ maxCsid
  bounded : r.buffered ≤ r.maxBuffered
  streams : ∀ csid cs, r.chunks csid = some cs → CsSound r.maxMessage cs
  pending : 0 < r.pendingRemaining → ∃ cs, r.chunks r.pendingCsid = some cs ∧
    cs.payload.isSome ∧ cs.received + r.pendingRemaining ≤ cs.length

theorem new_sound (limit : ℕ) : CsSound limit ChunkStream.new := by
  constructor
  · exact fun _ => rfl
  · intro h
    simp [ChunkStream.new] at h

theorem Accounted.allocated_le {r : Reader} (h : Accounted r) {csid : ℕ} {cs : ChunkStream}
    (hc : r.chunks csid = some cs) : cs.allocated ≤ r.buffered := by
  obtain ⟨ids, hids, -, hsum⟩ := h
  have hmem : csid ∈ ids := (hids csid).mpr (by rw [hc]; rfl)
  have hone : allocatedAt r csid = cs.allocated := by
    unfold allocatedAt
    rw [hc]
  rw [hsum, ← hone]
  exact Finset.single_le_sum (f := allocatedAt r) (fun _ _ => Nat.zero_le _) hmem

theorem Accounted.replace {r : Reader} (h : Accounted r) {csid : ℕ} {old cs : ChunkStream}
    (hc : r.chunks csid = some old) {buffered : ℕ}
    (hb : buffered + old.allocated = r.buffered + cs.allocated) :
    Accounted (setCs { r with buffered := buffered } csid cs) := by
  obtain ⟨ids, hids, hcard, hsum⟩ := h
  have hmem : csid ∈ ids := (hids csid).mpr (by rw [hc]; rfl)
  refine ⟨ids, fun i => ?_, hcard, ?_⟩
  · by_cases hi : i = csid
    · subst i
      simp [setCs, hmem]
    · simp [setCs, Function.update_of_ne hi, hids]
  · have hone : allocatedAt r csid = old.allocated := by
      unfold allocatedAt
      rw [hc]
    have hother : ∀ i ∈ ids.erase csid,
        allocatedAt (setCs { r with buffered := buffered } csid cs) i = allocatedAt r i := by
      intro i hi
      have hne := (Finset.mem_erase.mp hi).1
      simp [allocatedAt, setCs, Function.update_of_ne hne]
    have hnew : allocatedAt (setCs { r with buffered := buffered } csid cs) csid =
        cs.allocated := by
      simp [allocatedAt, setCs]
    have hold := Finset.add_sum_erase ids (fun i => allocatedAt r i) hmem
    rw [← Finset.add_sum_erase ids _ hmem, Finset.sum_congr (g := fun i => allocatedAt r i) rfl
      hother, hnew]
    change buffered = _
    omega

/-- Everything but the chunk streams and the counters of memory may change. -/
theorem Accounted.of_eq {r t : Reader} (h : Accounted r) (hc : t.chunks = r.chunks)
    (hu : t.used = r.used) (hb : t.buffered = r.buffered) : Accounted t := by
  obtain ⟨ids, hids, hcard, hsum⟩ := h
  refine ⟨ids, fun i => by rw [hc, hids], by rw [hu, hcard], ?_⟩
  rw [hb, hsum]
  exact Finset.sum_congr rfl fun i _ => by simp only [allocatedAt, hc]

/-- The step of every update of the feed loop: one chunk stream, the sum, what is pending. -/
theorem Sound.replace {r : Reader} (h : Sound r) {csid : ℕ} {old cs : ChunkStream}
    (hc : r.chunks csid = some old) {buffered : ℕ}
    (hb : buffered + old.allocated = r.buffered + cs.allocated)
    (hmax : buffered ≤ r.maxBuffered) (hcs : CsSound r.maxMessage cs) {p n : ℕ}
    (hpend : 0 < n → p = csid ∧ cs.payload.isSome ∧ cs.received + n ≤ cs.length) :
    Sound { setCs { r with buffered := buffered } csid cs with
      pendingCsid := p, pendingRemaining := n } := by
  constructor
  · exact (h.accounted.replace hc hb).of_eq rfl rfl rfl
  · exact h.slots
  · exact hmax
  · intro i cs' hi
    by_cases hne : i = csid
    · subst i
      have hsome : some cs = some cs' := by simpa [setCs] using hi
      obtain rfl := Option.some.inj hsome
      exact hcs
    · exact h.streams i cs' (by simpa [setCs, Function.update_of_ne hne] using hi)
  · intro hpos
    obtain ⟨rfl, hsome, hle⟩ := hpend hpos
    exact ⟨cs, by simp [setCs], hsome, hle⟩

theorem Sound.settle {r : Reader} (h : Sound r) (hidle : r.pendingRemaining = 0) {csid : ℕ}
    {old cs : ChunkStream} (hc : r.chunks csid = some old) {buffered : ℕ}
    (hb : buffered + old.allocated = r.buffered + cs.allocated)
    (hmax : buffered ≤ r.maxBuffered) (hcs : CsSound r.maxMessage cs) :
    Sound (setCs { r with buffered := buffered } csid cs) := by
  have hone := h.replace hc hb hmax hcs (p := r.pendingCsid) (n := r.pendingRemaining)
    fun hpos => absurd hidle (by omega)
  exact hone

theorem Sound.fault {r : Reader} (h : Sound r) : Sound (fault r) :=
  ⟨h.accounted.of_eq rfl rfl rfl, h.slots, h.bounded, h.streams, h.pending⟩

theorem csGet_sound {r r' : Reader} (h : Sound r) (hidle : r.pendingRemaining = 0) {csid : ℕ}
    {create : Bool} {cs : ChunkStream} (hg : csGet r csid create = some (r', cs)) :
    Sound r' ∧ r'.pendingRemaining = 0 ∧ r'.chunks csid = some cs := by
  unfold csGet at hg
  cases hc : r.chunks csid with
  | some old =>
    rw [hc] at hg
    obtain ⟨rfl, rfl⟩ := Prod.mk.inj (Option.some.inj hg)
    exact ⟨h, hidle, hc⟩
  | none =>
    rw [hc] at hg
    dsimp only at hg
    split_ifs at hg with hfree
    obtain ⟨rfl, rfl⟩ := Prod.mk.inj (Option.some.inj hg)
    obtain ⟨ids, hids, hcard, hsum⟩ := h.accounted
    have hfresh : csid ∉ ids := fun hmem => by
      have := (hids csid).mp hmem
      rw [hc] at this
      exact absurd this (by decide)
    have hother : ∀ i ∈ ids, allocatedAt
        { setCs r csid ChunkStream.new with used := r.used + 1 } i = allocatedAt r i := by
      intro i hi
      have hne : i ≠ csid := fun he => hfresh (he ▸ hi)
      simp [allocatedAt, setCs, Function.update_of_ne hne]
    refine ⟨⟨⟨insert csid ids, fun i => ?_, ?_, ?_⟩, hfree.2, h.bounded, fun i cs' hi => ?_,
      fun hpos => absurd hidle (by change 0 < r.pendingRemaining at hpos; omega)⟩, hidle,
      by simp [setCs]⟩
    · by_cases hi : i = csid
      · subst i
        simp [setCs]
      · simp [setCs, hids, hi]
    · rw [Finset.card_insert_of_notMem hfresh, hcard]
    · have hzero : allocatedAt { setCs r csid ChunkStream.new with used := r.used + 1 } csid
          = 0 := by
        simp [allocatedAt, setCs, ChunkStream.new]
      rw [Finset.sum_insert hfresh, Finset.sum_congr rfl hother, hzero, Nat.zero_add]
      exact hsum
    · by_cases hne : i = csid
      · subst i
        have hsome : some ChunkStream.new = some cs' := by simpa [setCs] using hi
        obtain rfl := Option.some.inj hsome
        exact new_sound _
      · exact h.streams i cs' (by simpa [setCs, Function.update_of_ne hne] using hi)

structure HeaderSound (limit buffered buffered' : ℕ) (cs cs' : ChunkStream) : Prop where
  sum : buffered' + cs.allocated = buffered + cs'.allocated
  le : buffered' ≤ buffered
  stream : CsSound limit cs'
  fresh : cs'.payload = none → cs'.received = 0

theorem headerFields_sound {limit buffered : ℕ} {cs : ChunkStream} (hcs : CsSound limit cs)
    (hle : cs.allocated ≤ buffered) (fmt h : ℕ) (bytes : List UInt8) :
    HeaderSound limit buffered (headerFields buffered cs fmt h bytes).1 cs
      (headerFields buffered cs fmt h bytes).2 := by
  by_cases hfmt : fmt = 2
  · subst fmt
    have hkeep : headerFields buffered cs 2 h bytes = (buffered,
        { cs with extended := decide (ByteString.be24 bytes h = 0xFFFFFF), received := 0 }) := by
      simp [headerFields]
    rw [hkeep]
    refine ⟨rfl, le_refl _, ⟨hcs.free, fun hsome => ?_⟩, fun _ => rfl⟩
    obtain ⟨ha, -, hl⟩ := hcs.held hsome
    exact ⟨ha, Nat.zero_le _, hl⟩
  · cases hp : cs.payload with
    | some p =>
      have hrel : (headerFields buffered cs fmt h bytes).1 = buffered - cs.allocated ∧
          (headerFields buffered cs fmt h bytes).2.payload = none ∧
          (headerFields buffered cs fmt h bytes).2.allocated = 0 ∧
          (headerFields buffered cs fmt h bytes).2.received = 0 := by
        by_cases h0 : fmt = 0
        · simp [headerFields, hp, release, h0]
        · simp [headerFields, hfmt, hp, release, h0]
      obtain ⟨hb, hn, ha, hr⟩ := hrel
      refine ⟨by omega, by omega, ⟨fun _ => ha, fun hsome => ?_⟩, fun _ => hr⟩
      rw [hn] at hsome
      exact absurd hsome (by decide)
    | none =>
      have hsame : (headerFields buffered cs fmt h bytes).1 = buffered ∧
          (headerFields buffered cs fmt h bytes).2.payload = none ∧
          (headerFields buffered cs fmt h bytes).2.allocated = cs.allocated ∧
          (headerFields buffered cs fmt h bytes).2.received = 0 := by
        by_cases h0 : fmt = 0
        · simp [headerFields, hp, h0]
        · simp [headerFields, hfmt, hp, h0]
      obtain ⟨hb, hn, ha, hr⟩ := hsame
      refine ⟨by omega, by omega, ⟨fun _ => ha.trans (hcs.free hp), fun hsome => ?_⟩,
        fun _ => hr⟩
      rw [hn] at hsome
      exact absurd hsome (by decide)

theorem HeaderSound.stamp {limit buffered buffered' : ℕ} {cs cs' : ChunkStream}
    (h : HeaderSound limit buffered buffered' cs cs') (fmt field : ℕ) :
    HeaderSound limit buffered buffered' cs (stamp fmt field cs') :=
  ⟨h.sum, h.le, ⟨h.stream.free, h.stream.held⟩, h.fresh⟩

theorem repeatHeader_sound {limit buffered : ℕ} {cs : ChunkStream} (hcs : CsSound limit cs) :
    HeaderSound limit buffered buffered cs (repeatHeader cs) := by
  unfold repeatHeader
  split_ifs with hidle
  · refine ⟨rfl, le_refl _, ⟨hcs.free, fun hsome => ?_⟩, fun _ => rfl⟩
    obtain ⟨ha, -, hl⟩ := hcs.held hsome
    exact ⟨ha, Nat.zero_le _, hl⟩
  · exact ⟨rfl, le_refl _, hcs, fun hn => absurd (Or.inr hn) hidle⟩

theorem chunkHeader_sound {limit buffered : ℕ} {cs : ChunkStream} (hcs : CsSound limit cs)
    (hle : cs.allocated ≤ buffered) (fmt h : ℕ) (bytes : List UInt8) :
    (chunkHeader buffered cs fmt h bytes).1 + cs.allocated =
        buffered + (chunkHeader buffered cs fmt h bytes).2.1.allocated ∧
      (chunkHeader buffered cs fmt h bytes).1 ≤ buffered ∧
      CsSound limit (chunkHeader buffered cs fmt h bytes).2.1 ∧
      ((chunkHeader buffered cs fmt h bytes).2.2.isSome →
        (chunkHeader buffered cs fmt h bytes).2.1.payload = none →
        (chunkHeader buffered cs fmt h bytes).2.1.received = 0) := by
  unfold chunkHeader
  split_ifs with hfmt
  · have hr : HeaderSound limit buffered buffered cs (repeatHeader cs) := repeatHeader_sound hcs
    unfold continuation
    dsimp only
    split_ifs <;> exact ⟨hr.sum, hr.le, hr.stream, fun _ => hr.fresh⟩
  · have hf := headerFields_sound hcs hle fmt h bytes
    unfold messageHeader
    dsimp only
    split_ifs
    · exact ⟨rfl, le_refl _, hcs, fun hn => absurd hn (by simp)⟩
    · exact ⟨hf.sum, hf.le, hf.stream, fun hn => absurd hn (by simp)⟩
    · have hs := hf.stamp fmt (ByteString.be32 bytes (h + messageHeaderSize fmt))
      exact ⟨hs.sum, hs.le, hs.stream, fun _ => hs.fresh⟩
    · have hs := hf.stamp fmt (ByteString.be24 bytes h)
      exact ⟨hs.sum, hs.le, hs.stream, fun _ => hs.fresh⟩

structure AtPayload (r : Reader) (csid : ℕ) (cs : ChunkStream) : Prop where
  sound : Sound r
  stream : r.chunks csid = some cs
  received : cs.received ≤ cs.length
  room : cs.payload = none → cs.length = 0
  pending : 0 < r.pendingRemaining → r.pendingCsid = csid ∧ cs.payload.isSome ∧
    cs.received + r.pendingRemaining ≤ cs.length

theorem openMessage_sound (host : Host) {r : Reader} (h : Sound r)
    (hidle : r.pendingRemaining = 0) {csid n : ℕ} {cs : ChunkStream}
    (hc : r.chunks csid = some cs) (hfresh : cs.payload = none → cs.received = 0) :
    match openMessage host r csid cs n with
    | .more _ => False
    | .bad r' => Sound r' ∧ r'.pendingRemaining = 0
    | .ready r' csid' cs' n' => AtPayload r' csid' cs' ∧ n' = n := by
  have hcs := h.streams csid cs hc
  have ha := h.accounted.allocated_le hc
  unfold openMessage
  dsimp only
  split_ifs with hlong hnew hbudget halloc
  · exact ⟨h.fault, hidle⟩
  · exact ⟨h.fault, hidle⟩
  · exact ⟨h.fault, hidle⟩
  · -- a new payload: the budget has room for the whole message
    have hzero := hcs.free hnew.1
    have hrec := hfresh hnew.1
    have hb := h.bounded
    have hsound : CsSound r.maxMessage { cs with payload := some [], allocated := cs.length } :=
      ⟨fun hn => absurd hn (by simp), fun _ => ⟨rfl, by dsimp only; omega, by dsimp only; omega⟩⟩
    have hpend : 0 < min (cs.length - cs.received) r.chunkSize →
        cs.received + min (cs.length - cs.received) r.chunkSize ≤ cs.length := fun _ => by omega
    refine ⟨⟨?_, by simp [setCs], by dsimp only; omega, fun hn => absurd hn (by simp), ?_⟩, rfl⟩
    · have hbuf : r.buffered + cs.length + cs.allocated = r.buffered + cs.length := by omega
      exact h.replace hc hbuf (by omega) hsound (p := csid) fun hpos => ⟨rfl, rfl, hpend hpos⟩
    · exact fun hpos => ⟨rfl, rfl, hpend hpos⟩
  · have hrec : cs.received ≤ cs.length := by
      cases hp : cs.payload with
      | none =>
        have := hfresh hp
        omega
      | some p => exact (hcs.held (by rw [hp]; rfl)).2.1
    have hroom : cs.payload = none → cs.length = 0 := fun hn => by
      by_contra hpos
      exact hnew ⟨hn, by omega⟩
    have hpend : 0 < min (cs.length - cs.received) r.chunkSize → cs.payload.isSome ∧
        cs.received + min (cs.length - cs.received) r.chunkSize ≤ cs.length := by
      intro hpos
      refine ⟨?_, by omega⟩
      cases hp : cs.payload with
      | none =>
        have := hroom hp
        omega
      | some p => rfl
    refine ⟨⟨?_, by simp [setCs], hrec, hroom, fun hpos => ⟨rfl, hpend hpos⟩⟩, rfl⟩
    have hsame : r.buffered + cs.allocated = r.buffered + cs.allocated := rfl
    exact h.replace hc hsame h.bounded hcs (p := csid) fun hpos => ⟨rfl, hpend hpos⟩

theorem parseHeader_sound (host : Host) {r : Reader} (h : Sound r)
    (hidle : r.pendingRemaining = 0) (bytes : List UInt8) :
    match parseHeader host r bytes with
    | .more r' => Sound r' ∧ r'.pendingRemaining = 0
    | .bad r' => Sound r' ∧ r'.pendingRemaining = 0
    | .ready r' csid cs _ => AtPayload r' csid cs := by
  unfold parseHeader
  cases basicHeader bytes with
  | none => exact ⟨h, hidle⟩
  | some x =>
    obtain ⟨fmt, csid, n⟩ := x
    dsimp only
    cases hg : csGet r csid (fmt != 3) with
    | none => exact ⟨h.fault, hidle⟩
    | some y =>
      obtain ⟨r₁, cs₁⟩ := y
      obtain ⟨h₁, hidle₁, hc₁⟩ := csGet_sound h hidle hg
      have ha := h₁.accounted.allocated_le hc₁
      obtain ⟨hsum, hle, hcs, hfresh⟩ :=
        chunkHeader_sound (h₁.streams csid cs₁ hc₁) ha fmt n bytes
      rcases hh : chunkHeader r₁.buffered cs₁ fmt n bytes with ⟨buffered, cs₂, m⟩
      rw [hh] at hsum hle hcs hfresh
      have hset := h₁.settle hidle₁ hc₁ hsum (hle.trans h₁.bounded) hcs
      dsimp only
      rw [hh]
      cases m with
      | none => exact ⟨hset, hidle₁⟩
      | some m =>
        have hc₂ : (setCs { r₁ with buffered := buffered } csid cs₂).chunks csid = some cs₂ := by
          simp [setCs]
        have ho := openMessage_sound host (n := m) hset hidle₁ hc₂ (hfresh rfl)
        dsimp only
        split at ho
        · exact absurd ho id
        · next heq => rw [heq]; exact ho
        · next heq => rw [heq]; exact ho.1

theorem abort_sound {r : Reader} (h : Sound r) (hidle : r.pendingRemaining = 0) (csid : ℕ) :
    Sound (abort r csid) := by
  unfold abort
  cases hc : r.chunks csid with
  | none => exact h
  | some target =>
    dsimp only
    split_ifs with hsome
    · have ha := h.accounted.allocated_le hc
      have hb := h.bounded
      refine h.settle hidle hc ?_ ?_ ⟨fun _ => rfl, fun hn => absurd hn (by simp [release])⟩
      · simp only [release]
        omega
      · simp only [release]
        omega
    · exact h

theorem setChunkSize_sound {r : Reader} (h : Sound r) (size : ℕ) :
    Sound (setChunkSize r size).1 := by
  unfold setChunkSize
  split_ifs
  · exact h.fault
  · exact ⟨h.accounted.of_eq rfl rfl rfl, h.slots, h.bounded, h.streams, h.pending⟩

theorem control_sound {r : Reader} (h : Sound r) (hidle : r.pendingRemaining = 0)
    (cs : ChunkStream) (payload : Payload) : Sound (RtmpReader.control r cs payload).1 := by
  unfold RtmpReader.control
  split_ifs
  · exact h
  · exact h.fault
  · exact setChunkSize_sound h _
  · exact abort_sound h hidle _

theorem complete_sound (host : Host) {s : State} (h : Sound s.reader)
    (hidle : s.reader.pendingRemaining = 0) {csid : ℕ} {cs : ChunkStream}
    (hc : s.reader.chunks csid = some cs) : Sound (complete host s csid cs).1.reader := by
  have ha := h.accounted.allocated_le hc
  have hb := h.bounded
  have hfree : Sound (setCs { s.reader with buffered := s.reader.buffered - cs.allocated } csid
      { cs with payload := none, allocated := 0 }) :=
    h.settle hidle hc (by dsimp only; omega) (by omega)
      ⟨fun _ => rfl, fun hn => absurd hn (by simp)⟩
  unfold complete
  dsimp only
  cases cs.payload with
  | none => exact hfree
  | some payload =>
    have hcontrol := control_sound hfree hidle cs (payload.take cs.length)
    dsimp only
    split
    · next r heq =>
      rw [heq] at hcontrol
      split_ifs
      · exact ⟨hcontrol.accounted.of_eq rfl rfl rfl, hcontrol.slots, hcontrol.bounded,
          hcontrol.streams, hcontrol.pending⟩
      · exact hcontrol
    · next r _ _ heq =>
      rw [heq] at hcontrol
      exact hcontrol

def Step.state : RtmpReader.Step → State
  | .stop s => s
  | .fail s _ => s
  | .next s _ => s

theorem Step.state_after (n : ℕ) (step : RtmpReader.Step) :
    Step.state (step.after n) = Step.state step := by
  cases step <;> rfl

theorem part_le {r : Reader} {csid : ℕ} {cs : ChunkStream} (h : AtPayload r csid cs)
    (bytes : List UInt8) :
    cs.received + (bytes.take (wanted r cs)).length ≤ cs.length ∧
      (bytes.take (wanted r cs)).length ≤ r.pendingRemaining := by
  have := h.received
  rw [List.length_take, wanted]
  omega

theorem copied_isSome (cs : ChunkStream) (bytes : List UInt8) :
    (copied cs bytes).payload.isSome = cs.payload.isSome := by
  unfold copied
  dsimp only
  split_ifs
  · rfl
  · exact Option.isSome_map

theorem payloadStep_sound {host : Host} {s : State} {csid : ℕ} {cs : ChunkStream}
    (h : AtPayload s.reader csid cs) (bytes : List UInt8) :
    Sound (Step.state (payloadStep host s csid cs bytes)).reader := by
  obtain ⟨hlen, hpart⟩ := part_le h bytes
  have hcs := h.sound.streams csid cs h.stream
  have hcopied : CsSound s.reader.maxMessage (copied cs (bytes.take (wanted s.reader cs))) := by
    constructor
    · intro hn
      rw [← Option.isNone_iff_eq_none, ← Option.not_isSome, copied_isSome, Option.not_isSome,
        Option.isNone_iff_eq_none] at hn
      exact hcs.free hn
    · intro hsome
      rw [copied_isSome] at hsome
      exact ⟨(hcs.held hsome).1, hlen, (hcs.held hsome).2.2⟩
  have hadvance : Sound (advance s.reader csid cs (bytes.take (wanted s.reader cs))) := by
    have hsame : s.reader.buffered + cs.allocated =
        s.reader.buffered + (copied cs (bytes.take (wanted s.reader cs))).allocated := rfl
    refine h.sound.replace h.stream hsame h.sound.bounded hcopied fun hpos => ?_
    dsimp only at hpos ⊢
    obtain ⟨hcsid, hsome, hle⟩ := h.pending (by omega)
    refine ⟨hcsid, by rw [copied_isSome]; exact hsome, ?_⟩
    rw [copied_received, copied_length]
    omega
  unfold payloadStep
  dsimp only
  split_ifs with hend
  · have hfinish : Sound (finish (advance s.reader csid cs (bytes.take (wanted s.reader cs)))) :=
      ⟨hadvance.accounted.of_eq rfl rfl rfl, hadvance.slots, hadvance.bounded,
        hadvance.streams, fun hpos => absurd hpos (Nat.lt_irrefl 0)⟩
    have hheld : (finish (advance s.reader csid cs (bytes.take (wanted s.reader cs)))).chunks csid =
        some (copied cs (bytes.take (wanted s.reader cs))) := by
      simp [finish, advance, setCs]
    have hdone := complete_sound host
      (s := ⟨finish (advance s.reader csid cs (bytes.take (wanted s.reader cs))), s.delivered⟩)
      hfinish rfl hheld
    split
    · next heq => rw [heq] at hdone; exact hdone
    · next heq => rw [heq] at hdone; exact hdone
  · exact hadvance

def payloadLabel (host : Host) (s : State) (bytes : List UInt8) :
    Option (Reader × ℕ × ChunkStream × ℕ) :=
  if s.reader.pendingRemaining > 0 then
    (s.reader.chunks s.reader.pendingCsid).map fun cs => (s.reader, s.reader.pendingCsid, cs, 0)
  else
    match parseHeader host s.reader bytes with
    | .ready r csid cs h => some (r, csid, cs, h)
    | _ => none

theorem payloadLabel_sound {host : Host} {s : State} (h : Sound s.reader) {bytes : List UInt8}
    {r : Reader} {csid n : ℕ} {cs : ChunkStream}
    (hl : payloadLabel host s bytes = some (r, csid, cs, n)) : AtPayload r csid cs := by
  unfold payloadLabel at hl
  split_ifs at hl with hpend
  · obtain ⟨cs', hc, hsome, hle⟩ := h.pending hpend
    rw [hc, Option.map_some] at hl
    cases hl
    refine ⟨h, hc, by omega, fun hn => ?_, fun _ => ⟨rfl, hsome, hle⟩⟩
    rw [hn] at hsome
    exact absurd hsome (by decide)
  · have hp := parseHeader_sound host h (by omega) bytes
    split at hl
    · next heq =>
      rw [heq] at hp
      cases hl
      exact hp
    · cases hl

theorem loopStep_label (host : Host) {s : State} (h : Sound s.reader) (bytes : List UInt8) :
    (payloadLabel host s bytes = none ∧ Sound (Step.state (loopStep host s bytes)).reader ∧
      ∀ s' n, loopStep host s bytes ≠ .next s' n) ∨
    ∃ r csid cs n, payloadLabel host s bytes = some (r, csid, cs, n) ∧
      Step.state (loopStep host s bytes) =
        Step.state (payloadStep host ⟨r, s.delivered⟩ csid cs (bytes.drop n)) := by
  unfold payloadLabel loopStep
  split_ifs with hpend
  · obtain ⟨cs, hc, -, -⟩ := h.pending hpend
    exact Or.inr ⟨s.reader, s.reader.pendingCsid, cs, 0, by rw [hc]; rfl, by rw [hc]; rfl⟩
  · have hp := parseHeader_sound host h (by omega) bytes
    cases hh : parseHeader host s.reader bytes with
    | more r =>
      rw [hh] at hp
      exact Or.inl ⟨rfl, hp.1, fun _ _ hn => by cases hn⟩
    | bad r =>
      rw [hh] at hp
      exact Or.inl ⟨rfl, hp.1, fun _ _ hn => by cases hn⟩
    | ready r csid cs n => exact Or.inr ⟨r, csid, cs, n, rfl, Step.state_after n _⟩

theorem loopStep_sound (host : Host) {s : State} (h : Sound s.reader) (bytes : List UInt8) :
    Sound (Step.state (loopStep host s bytes)).reader := by
  rcases loopStep_label host h bytes with ⟨-, hs, -⟩ | ⟨r, csid, cs, n, hl, hs⟩
  · exact hs
  · rw [hs]
    exact payloadStep_sound (s := ⟨r, s.delivered⟩) (payloadLabel_sound h hl) _

/-- Every copy stays inside what is left of the input and inside the payload buffer, and a
pass that goes on has consumed something. -/
structure PassSafe (host : Host) (s : State) (bytes : List UInt8) : Prop where
  copies : ∀ r csid cs n, payloadLabel host s bytes = some (r, csid, cs, n) →
    cs.received ≤ cs.length ∧
    n + ((bytes.drop n).take (wanted r cs)).length ≤ bytes.length ∧
    (cs.payload.isSome →
      cs.received + ((bytes.drop n).take (wanted r cs)).length ≤ cs.allocated) ∧
    (cs.payload = none → wanted r cs = 0)
  progress : ∀ s' n, loopStep host s bytes = .next s' n → 0 < n ∧ n ≤ bytes.length

theorem payloadLabel_size {host : Host} {s : State} {bytes : List UInt8} (hne : bytes ≠ [])
    {r : Reader} {csid n : ℕ} {cs : ChunkStream}
    (hl : payloadLabel host s bytes = some (r, csid, cs, n)) :
    n ≤ bytes.length ∧ (s.reader.pendingRemaining = 0 → 0 < n) := by
  unfold payloadLabel at hl
  split_ifs at hl with hpend
  · rw [Option.map_eq_some_iff] at hl
    obtain ⟨cs', -, he⟩ := hl
    cases he
    exact ⟨Nat.zero_le _, fun h0 => by omega⟩
  · split at hl
    · next heq =>
      cases hl
      obtain ⟨hpos, hle⟩ := parseHeader_size hne heq
      exact ⟨hle, fun _ => hpos⟩
    · cases hl

theorem pass_safe {host : Host} {s : State} (h : Sound s.reader) {bytes : List UInt8}
    (hne : bytes ≠ []) : PassSafe host s bytes := by
  constructor
  · intro r csid cs n hl
    have hat := payloadLabel_sound h hl
    have hn := (payloadLabel_size hne hl).1
    have hcs := hat.sound.streams csid cs hat.stream
    refine ⟨hat.received, ?_, fun hsome => ?_, fun hnone => ?_⟩
    · rw [List.length_take, List.length_drop]
      omega
    · rw [(hcs.held hsome).1]
      exact (part_le hat _).1
    · have := hat.room hnone
      unfold wanted
      omega
  · intro s' n hs
    unfold loopStep at hs
    split_ifs at hs with hpend
    · obtain ⟨cs, hc, hsome, hle⟩ := h.pending hpend
      rw [hc] at hs
      dsimp only at hs
      have hlen : n = (bytes.take (wanted s.reader cs)).length := by
        unfold payloadStep at hs
        dsimp only at hs
        split_ifs at hs
        · split at hs <;> cases hs
          rfl
        · cases hs
          rfl
      have hpos := List.length_pos_iff.mpr hne
      rw [hlen, List.length_take, wanted]
      omega
    · rcases hp : parseHeader host s.reader bytes with _ | _ | ⟨r, csid, cs, k⟩
      · simp [hp] at hs
      · simp [hp] at hs
      · simp only [hp] at hs
        obtain ⟨hk, hkle⟩ := parseHeader_size hne hp
        rcases hpay : payloadStep host ⟨r, s.delivered⟩ csid cs (bytes.drop k) with
          _ | _ | ⟨t, m⟩
        · rw [hpay] at hs
          cases hs
        · rw [hpay] at hs
          cases hs
        · rw [hpay] at hs
          cases hs
          have := (payloadStep_next hpay).1
          rw [List.length_drop] at this
          omega

def passes (host : Host) (s : State) (bytes : List UInt8) : List (State × List UInt8) :=
  if _hne : bytes = [] then []
  else
    match _hp : loopStep host s bytes with
    | .stop _ => [(s, bytes)]
    | .fail _ _ => [(s, bytes)]
    | .next s' n => (s, bytes) :: passes host s' (bytes.drop n)
termination_by measure s bytes
decreasing_by exact pass_progress _hne _hp

theorem passes_sound {host : Host} {s : State} (h : Sound s.reader) (bytes : List UInt8) :
    ∀ v ∈ passes host s bytes, Sound v.1.reader ∧ PassSafe host v.1 v.2 := by
  induction s, bytes using passes.induct host with
  | case1 s =>
    intro v hv
    rw [passes, dif_pos rfl] at hv
    simp at hv
  | case2 s bytes hne t hs =>
    intro v hv
    rw [passes, dif_neg hne] at hv
    split at hv
    · obtain rfl := List.mem_singleton.mp hv
      exact ⟨h, pass_safe h hne⟩
    · next heq => rw [hs] at heq; cases heq
    · next heq => rw [hs] at heq; cases heq
  | case3 s bytes hne t n hs =>
    intro v hv
    rw [passes, dif_neg hne] at hv
    split at hv
    · next heq => rw [hs] at heq; cases heq
    · obtain rfl := List.mem_singleton.mp hv
      exact ⟨h, pass_safe h hne⟩
    · next heq => rw [hs] at heq; cases heq
  | case4 s bytes hne t n hs ih =>
    intro v hv
    rw [passes, dif_neg hne] at hv
    have hnext := loopStep_sound host h bytes
    rw [hs] at hnext
    split at hv
    · next heq => rw [hs] at heq; cases heq
    · next heq => rw [hs] at heq; cases heq
    · next heq =>
      rw [hs] at heq
      cases heq
      rcases List.mem_cons.mp hv with rfl | hv
      · exact ⟨h, pass_safe h hne⟩
      · exact ih hnext v hv

theorem feedLoop_sound {host : Host} {s : State} (h : Sound s.reader) (bytes : List UInt8) :
    Sound (feedLoop host s bytes).1.reader := by
  induction s, bytes using feedLoop.induct host with
  | case1 s =>
    rw [feedLoop, dif_pos rfl]
    exact h
  | case2 s bytes hne t hs =>
    have hstep := loopStep_sound host h bytes
    rw [hs] at hstep
    rw [feedLoop, dif_neg hne]
    split
    · next heq => rw [hs] at heq; cases heq; exact hstep
    · next heq => rw [hs] at heq; cases heq
    · next heq => rw [hs] at heq; cases heq
  | case3 s bytes hne t n hs =>
    have hstep := loopStep_sound host h bytes
    rw [hs] at hstep
    rw [feedLoop, dif_neg hne]
    split
    · next heq => rw [hs] at heq; cases heq
    · next heq => rw [hs] at heq; cases heq; exact hstep
    · next heq => rw [hs] at heq; cases heq
  | case4 s bytes hne t n hs ih =>
    have hstep := loopStep_sound host h bytes
    rw [hs] at hstep
    rw [feedLoop, dif_neg hne]
    split
    · next heq => rw [hs] at heq; cases heq
    · next heq => rw [hs] at heq; cases heq
    · next heq => rw [hs] at heq; cases heq; exact ih hstep

inductive Event where
  | feed (host : Host) (bytes : List UInt8)
  | raiseLimits (maxMessage maxBuffered : ℕ)

def Event.step (c : Connection) : Event → Connection
  | .feed host bytes => (RtmpReader.feed host c bytes).1
  | .raiseLimits maxMessage maxBuffered =>
    { c with
      state := { c.state with
        reader := { c.state.reader with
          maxMessage := max c.state.reader.maxMessage maxMessage
          maxBuffered := max c.state.reader.maxBuffered maxBuffered } } }

/-- `ngx_media_rtmp_reader_init()` with the limits its caller sets. -/
def opened (maxMessage maxBuffered : ℕ) : Connection :=
  ⟨⟨{ Reader.init with maxMessage := maxMessage, maxBuffered := maxBuffered }, []⟩, 0⟩

theorem opened_sound (maxMessage maxBuffered : ℕ) :
    Sound (opened maxMessage maxBuffered).state.reader := by
  constructor
  · exact ⟨∅, fun i => by simp [opened, Reader.init], rfl, rfl⟩
  · exact Nat.zero_le _
  · exact Nat.zero_le _
  · intro csid cs hc
    simp [opened, Reader.init] at hc
  · intro hpos
    exact absurd hpos (Nat.lt_irrefl 0)

theorem event_sound (c : Connection) (event : Event) (h : Sound c.state.reader) :
    Sound (event.step c).state.reader := by
  cases event with
  | feed host bytes => exact feedLoop_sound h bytes
  | raiseLimits maxMessage maxBuffered =>
    refine ⟨h.accounted.of_eq rfl rfl rfl, h.slots, ?_, fun csid cs hc => ?_, h.pending⟩
    · exact h.bounded.trans (Nat.le_max_left _ _)
    · have hcs := h.streams csid cs hc
      refine ⟨hcs.free, fun hsome => ?_⟩
      obtain ⟨ha, hr, hl⟩ := hcs.held hsome
      exact ⟨ha, hr, hl.trans (Nat.le_max_left _ _)⟩

/-- Whatever bytes arrive in whatever pieces: the budget is the sum of the allocations and
within its bound, every buffer fits its message, and every pass of the loop copies within
bounds and consumes something or ends the call. -/
theorem reader_resources (maxMessage maxBuffered : ℕ) (events : List Event) (host : Host)
    (bytes : List UInt8) :
    Sound (events.foldl Event.step (opened maxMessage maxBuffered)).state.reader ∧
      ∀ v ∈ passes host (events.foldl Event.step (opened maxMessage maxBuffered)).state bytes,
        Sound v.1.reader ∧ PassSafe host v.1 v.2 := by
  have h := StepRun.invariant (I := fun c : Connection => Sound c.state.reader) event_sound
    (opened_sound maxMessage maxBuffered) events
  exact ⟨h, passes_sound h bytes⟩

end RtmpBudget
