import NginxMedia.Sha256

/-! The digest handshake of `ngx_media_rtmp_wire.c`: where the digests of the packets lie, which
one the client sent, and the reply to it. An access outside of a packet is `none`. -/
namespace RtmpHandshake

open ByteString BlockHash Sha256

def handshakeSize : ℕ := 1536

def rtmpVersion : UInt8 := 3

def fmsKey : Str :=
  ascii "Genuine Adobe Flash Media Server 001" ++
    [0xF0, 0xEE, 0xC2, 0x4A, 0x80, 0x68, 0xBE, 0xE8, 0x2E, 0x00, 0xD0, 0xD1, 0x02, 0x9E,
      0x7E, 0x57, 0x6E, 0xEC, 0x5D, 0x2D, 0x29, 0x80, 0x6F, 0xAB, 0x93, 0xB8, 0xE6, 0x36,
      0xCF, 0xEB, 0x31, 0xAE]

def playerKey : Str :=
  ascii "Genuine Adobe Flash Player 001" ++
    [0xF0, 0xEE, 0xC2, 0x4A, 0x80, 0x68, 0xBE, 0xE8, 0x2E, 0x00, 0xD0, 0xD1, 0x02, 0x9E,
      0x7E, 0x57, 0x6E, 0xEC, 0x5D, 0x2D, 0x29, 0x80, 0x6F, 0xAB, 0x93, 0xB8, 0xE6, 0x36,
      0xCF, 0xEB, 0x31, 0xAE]

def serverKeyLen : ℕ := 36

def playerKeyLen : ℕ := 30

/-- `n` bytes at an index. -/
def load (p : Str) (i n : ℕ) : Option Str :=
  if i + n ≤ p.length then some ((p.drop i).take n) else none

/-- `memcpy()` into a packet. -/
def store (p : Str) (i : ℕ) (bytes : Str) : Option Str :=
  if i + bytes.length ≤ p.length then
    some (p.take i ++ bytes ++ p.drop (i + bytes.length))
  else none

def handshakeDigest (packet : Str) (offset : ℕ) (key : Str) : Option Str := do
  let before ← load packet 0 offset
  let after ← load packet (offset + 32) (handshakeSize - offset - 32)
  let block := (keyBlock key).map (· ^^^ 0x36)
  let inner := final (update (update (update init block) before) after)
  let block := block.map (· ^^^ (0x36 ^^^ 0x5C))
  return final (update (update init block) inner)

def digestOffset (base : ℕ) (packet : Str) : Option ℕ := do
  let bytes ← load packet base 4
  return base + 4 + (bytes.map UInt8.toNat).sum % 728

def bases : List ℕ := [8, 772]

def clientDigestLoop (c1 : Str) : List ℕ → Option ℕ
  | [] => some 0
  | base :: bases => do
    let offset ← digestOffset base c1
    let digest ← handshakeDigest c1 offset (playerKey.take playerKeyLen)
    let field ← load c1 offset 32
    if digest = field then return offset else clientDigestLoop c1 bases

def clientDigest (c1 : Str) : Option ℕ := clientDigestLoop c1 bases

/-- What a generator puts behind the first eight bytes of S1. -/
structure Noise where
  bytes : Str
  size : bytes.length = handshakeSize - 8

def randomLoop : ℕ → UInt64 → Str
  | 0, _ => []
  | len + 1, x =>
    let x := x ^^^ (x <<< 13)
    let x := x ^^^ (x >>> 7)
    let x := x ^^^ (x <<< 17)
    (x >>> 24).toUInt8 :: randomLoop len x

theorem randomLoop_length (len : ℕ) (x : UInt64) : (randomLoop len x).length = len := by
  induction len generalizing x with
  | zero => rfl
  | succ len ih => rw [randomLoop, List.length_cons, ih]

def random (seed : UInt64) : Noise :=
  ⟨randomLoop (handshakeSize - 8) (if seed = 0 then 0x9E3779B97F4A7C15 else seed),
    randomLoop_length _ _⟩

def seedOf (now : UInt64) (c1 : Str) : Option UInt64 :=
  (List.range 4).foldlM (fun seed i => do
    let first ← c1[i]?
    let last ← c1[handshakeSize - 1 - i]?
    return (seed * 251 + first.toUInt64) * 251 + last.toUInt64) (now * 1000003)

def reply (random : UInt64 → Noise) (now : UInt64) (c1 : Str) (complex : Bool) : Option Str := do
  let seed ← seedOf now c1
  let version := if complex then [4, 5, 0, 1] else [0, 0, 0, 0]
  let s1 := [0, 0, 0, 0] ++ version ++ (random seed).bytes
  let client ← clientDigest c1
  if complex && client > 0 then
    let offset ← digestOffset 8 s1
    let digest ← handshakeDigest s1 offset (fmsKey.take serverKeyLen)
    let s1 ← store s1 offset digest
    let body ← load c1 0 (handshakeSize - 32)
    let field ← load c1 client 32
    let key := hmacSha256 fmsKey field
    return rtmpVersion :: s1 ++ (body ++ hmacSha256 key body)
  else
    let s2 ← load c1 0 handshakeSize
    return rtmpVersion :: s1 ++ s2

def complexOf (c1 : Str) : Option Bool := do
  let version ← load c1 4 4
  return version.any (· != 0)

def place (base : ℕ) (packet : Str) : ℕ :=
  base + 4 + (((packet.drop base).take 4).map UInt8.toNat).sum % 728

def field (base : ℕ) (packet : Str) : Str := (packet.drop (place base packet)).take 32

def unsigned (base : ℕ) (packet : Str) : Str :=
  packet.take (place base packet) ++ packet.drop (place base packet + 32)

def Signed (key : Str) (base : ℕ) (packet : Str) : Prop :=
  field base packet = hmac hash 64 key (unsigned base packet)

instance (key : Str) (base : ℕ) (packet : Str) : Decidable (Signed key base packet) :=
  inferInstanceAs (Decidable (_ = _))

def ClientSigned (base : ℕ) (c1 : Str) : Prop :=
  (base = 8 ∨ base = 772 ∧ ¬ Signed (playerKey.take playerKeyLen) 8 c1) ∧
    Signed (playerKey.take playerKeyLen) base c1

def AsksDigest (c1 : Str) : Prop := ∃ v ∈ (c1.drop 4).take 4, v ≠ 0

structure Reply where
  s1 : Str
  s2 : Str

def Reply.bytes (r : Reply) : Str := rtmpVersion :: r.s1 ++ r.s2

structure Accepted (c1 : Str) (r : Reply) : Prop where
  s1_size : r.s1.length = handshakeSize
  s2_size : r.s2.length = handshakeSize
  s1_signed : ∀ base, AsksDigest c1 → ClientSigned base c1 →
    Signed (fmsKey.take serverKeyLen) 8 r.s1
  s2_signed : ∀ base, AsksDigest c1 → ClientSigned base c1 →
    r.s2.drop (handshakeSize - 32) =
      hmac hash 64 (hmac hash 64 fmsKey (field base c1)) (r.s2.take (handshakeSize - 32))
  echoed : (¬ AsksDigest c1 ∨ ∀ base, ¬ ClientSigned base c1) → r.s2 = c1

section
variable {p bytes key c1 : Str} {i n base : ℕ}

theorem load_inside (h : i + n ≤ p.length) : load p i n = some ((p.drop i).take n) := if_pos h

theorem store_inside (h : i + bytes.length ≤ p.length) :
    store p i bytes = some (p.take i ++ bytes ++ p.drop (i + bytes.length)) := if_pos h

theorem place_lt (base : ℕ) (p : Str) : place base p < base + 732 := by
  have hmod := Nat.mod_lt (((p.drop base).take 4).map UInt8.toNat).sum (by decide : 0 < 728)
  unfold place
  omega

theorem le_place (base : ℕ) (p : Str) : base + 4 ≤ place base p := Nat.le_add_right _ _

theorem place_inside (hp : p.length = handshakeSize) (hbase : base ≤ 772) :
    place base p + 32 ≤ p.length := by
  have hlt := place_lt base p
  rw [hp, handshakeSize]
  omega

theorem digestOffset_inside (hp : p.length = handshakeSize) (hbase : base ≤ 772) :
    digestOffset base p = some (place base p) := by
  have hload : base + 4 ≤ p.length := by
    rw [hp, handshakeSize]
    omega
  rw [digestOffset, load_inside hload]
  rfl

theorem handshakeDigest_inside (hp : p.length = handshakeSize) (hbase : base ≤ 772) (key : Str) :
    handshakeDigest p (place base p) key = some (hmac hash 64 key (unsigned base p)) := by
  have hinside := place_inside hp hbase
  have hafter : (p.drop (place base p + 32)).take (handshakeSize - place base p - 32) =
      p.drop (place base p + 32) := by
    refine List.take_of_length_le ?_
    rw [List.length_drop, hp, Nat.sub_sub]
  have hbefore : load p 0 (place base p) = some (p.take (place base p)) :=
    load_inside (by omega)
  have hload : load p (place base p + 32) (handshakeSize - place base p - 32) =
      some (p.drop (place base p + 32)) := by
    rw [load_inside (by omega), hafter]
  rw [handshakeDigest, hbefore, hload]
  simp only [Option.bind_eq_bind, Option.bind_some, Option.pure_def]
  rw [final_three, final_two, pads_outer, keyBlock_eq, List.append_assoc]
  rfl

theorem field_inside (hp : p.length = handshakeSize) (hbase : base ≤ 772) :
    load p (place base p) 32 = some (field base p) := load_inside (place_inside hp hbase)

theorem clientDigestLoop_inside (hc1 : c1.length = handshakeSize) (hbase : base ≤ 772)
    (bases : List ℕ) : clientDigestLoop c1 (base :: bases) =
      if Signed (playerKey.take playerKeyLen) base c1 then some (place base c1)
      else clientDigestLoop c1 bases := by
  rw [clientDigestLoop, digestOffset_inside hc1 hbase]
  simp only [Option.bind_eq_bind, Option.bind_some]
  rw [handshakeDigest_inside hc1 hbase, field_inside hc1 hbase]
  simp only [Option.bind_some, Option.pure_def]
  exact if_congr eq_comm rfl rfl

theorem clientDigest_signed (hc1 : c1.length = handshakeSize) (h : ClientSigned base c1) :
    clientDigest c1 = some (place base c1) := by
  obtain ⟨rfl | ⟨rfl, hfirst⟩, hsigned⟩ := h
  · rw [clientDigest, bases, clientDigestLoop_inside hc1 (by decide), if_pos hsigned]
  · rw [clientDigest, bases, clientDigestLoop_inside hc1 (by decide), if_neg hfirst,
      clientDigestLoop_inside hc1 (by decide), if_pos hsigned]

theorem clientDigest_unsigned (hc1 : c1.length = handshakeSize)
    (h : ∀ base, ¬ ClientSigned base c1) : clientDigest c1 = some 0 := by
  have hfirst : ¬ Signed (playerKey.take playerKeyLen) 8 c1 := fun hs => h 8 ⟨Or.inl rfl, hs⟩
  have hsecond : ¬ Signed (playerKey.take playerKeyLen) 772 c1 := fun hs =>
    h 772 ⟨Or.inr ⟨rfl, hfirst⟩, hs⟩
  rw [clientDigest, bases, clientDigestLoop_inside hc1 (by decide), if_neg hfirst,
    clientDigestLoop_inside hc1 (by decide), if_neg hsecond]
  rfl

theorem ClientSigned.base_eq {other : ℕ} (h : ClientSigned base c1) (ho : ClientSigned other c1) :
    other = base := by
  obtain ⟨rfl | ⟨rfl, hfirst⟩, hsigned⟩ := h <;>
    obtain ⟨rfl | ⟨rfl, hother⟩, hosigned⟩ := ho
  · rfl
  · exact absurd hsigned hother
  · exact absurd hosigned hfirst
  · rfl

theorem ClientSigned.base_le (h : ClientSigned base c1) : base ≤ 772 := by
  obtain ⟨rfl | ⟨rfl, -⟩, -⟩ := h <;> decide

theorem seedOf_inside (hc1 : c1.length = handshakeSize) (now : UInt64) :
    ∃ seed, seedOf now c1 = some seed := by
  have hat : ∀ i < handshakeSize, ∃ x, c1[i]? = some x := fun i hi =>
    ⟨c1[i], List.getElem?_eq_getElem (by omega)⟩
  have hfold : ∀ (l : List ℕ) (seed : UInt64), (∀ i ∈ l, i < 4) →
      ∃ x, l.foldlM (fun (seed : UInt64) i => do
        let first ← c1[i]?
        let last ← c1[handshakeSize - 1 - i]?
        return (seed * 251 + first.toUInt64) * 251 + last.toUInt64) seed = some x := by
    intro l
    induction l with
    | nil => exact fun seed _ => ⟨seed, rfl⟩
    | cons i l ih =>
      intro seed h
      have hi := h i List.mem_cons_self
      obtain ⟨first, hfirst⟩ := hat i (by unfold handshakeSize; omega)
      obtain ⟨last, hlast⟩ := hat (handshakeSize - 1 - i) (by unfold handshakeSize; omega)
      rw [List.foldlM_cons, hfirst, hlast]
      exact ih _ fun j hj => h j (List.mem_cons_of_mem _ hj)
  exact hfold _ _ fun i hi => List.mem_range.mp hi

theorem complexOf_inside (hc1 : c1.length = handshakeSize) :
    ∃ complex, complexOf c1 = some complex ∧ (complex = true ↔ AsksDigest c1) := by
  have hload : 4 + 4 ≤ c1.length := by
    rw [hc1]
    decide
  refine ⟨((c1.drop 4).take 4).any (· != 0), ?_, ?_⟩
  · rw [complexOf, load_inside hload]
    rfl
  · simp only [List.any_eq_true, bne_iff_ne, AsksDigest]

theorem store_signed (hp : p.length = handshakeSize) (hbase : base ≤ 772)
    (hbytes : bytes = hmac hash 64 key (unsigned base p)) :
    ∃ q, store p (place base p) bytes = some q ∧ q.length = handshakeSize ∧
      Signed key base q := by
  have hinside := place_inside hp hbase
  have hfront := le_place base p
  have hsize : bytes.length = 32 := by
    rw [hbytes]
    exact hmac_length _ _
  have hhead : (p.take (place base p)).length = place base p := List.length_take_of_le (by omega)
  refine ⟨_, store_inside (by omega), ?_, ?_⟩
  · simp only [List.length_append, hhead, List.length_drop]
    omega
  · set q := p.take (place base p) ++ bytes ++ p.drop (place base p + bytes.length) with hq
    have hassoc : q = p.take (place base p) ++ (bytes ++ p.drop (place base p + bytes.length)) :=
      List.append_assoc _ _ _
    have hdrop : (q.drop base).take 4 = (p.drop base).take 4 := by
      have hcut : ((p.take (place base p)).drop base).length = place base p - base := by
        rw [List.length_drop, hhead]
      rw [hassoc, List.drop_append_of_le_length (by omega),
        List.take_append_of_le_length (by omega), List.drop_take, List.take_take]
      congr 1
      omega
    have hplace : place base q = place base p := by
      rw [place, hdrop]
      rfl
    have hfield : field base q = bytes := by
      rw [field, hplace, hassoc, List.drop_left' hhead, List.take_left' hsize]
    have hrest : unsigned base q = unsigned base p := by
      have hlong : (p.take (place base p) ++ bytes).length = place base p + 32 := by
        rw [List.length_append, hhead, hsize]
      have htake : q.take (place base p) = p.take (place base p) := by
        rw [hassoc, List.take_left' hhead]
      have hafter : q.drop (place base p + 32) = p.drop (place base p + 32) := by
        rw [hq, List.drop_left' hlong, hsize]
      rw [unsigned, hplace, htake, hafter]
      rfl
    rw [Signed, hfield, hrest, hbytes]

theorem reply_accepted (random : UInt64 → Noise) (now : UInt64) {complex : Bool}
    (hc1 : c1.length = handshakeSize) (hcomplex : complex = true ↔ AsksDigest c1) :
    ∃ r : Reply, reply random now c1 complex = some r.bytes ∧ Accepted c1 r := by
  obtain ⟨seed, hseed⟩ := seedOf_inside hc1 now
  have hversion : (if complex then [4, 5, 0, 1] else [0, 0, 0, 0] : Str).length = 4 := by
    cases complex <;> rfl
  have hs1 : ([0, 0, 0, 0] ++ (if complex then [4, 5, 0, 1] else [0, 0, 0, 0]) ++
      (random seed).bytes : Str).length = handshakeSize := by
    rw [List.length_append, List.length_append, hversion, (random seed).size]
    rfl
  have hwhole : load c1 0 handshakeSize = some c1 := by
    rw [load_inside (by omega), List.drop_zero, ← hc1, List.take_length]
  unfold reply
  rw [hseed]
  simp only [Option.bind_eq_bind, Option.bind_some]
  generalize ([0, 0, 0, 0] ++ (if complex then [4, 5, 0, 1] else [0, 0, 0, 0]) ++
    (random seed).bytes : Str) = s1 at hs1 ⊢
  by_cases hdigest : AsksDigest c1 ∧ ∃ base, ClientSigned base c1
  · obtain ⟨hasks, base, hbase⟩ := hdigest
    have hpos : (complex && decide (place base c1 > 0)) = true := by
      have hle := le_place base c1
      rw [hcomplex.mpr hasks, Bool.true_and, decide_eq_true_eq]
      omega
    have hbody : load c1 0 (handshakeSize - 32) = some (c1.take (handshakeSize - 32)) :=
      load_inside (by rw [hc1]; omega)
    have hbodySize : (c1.take (handshakeSize - 32)).length = handshakeSize - 32 :=
      List.length_take_of_le (by omega)
    obtain ⟨signed, hstore, hsize, hsigned⟩ :=
      @store_signed s1 _ (fmsKey.take serverKeyLen) 8 hs1 (by decide) rfl
    rw [clientDigest_signed hc1 hbase]
    simp only [Option.bind_some]
    rw [if_pos hpos, digestOffset_inside hs1 (by decide)]
    simp only [Option.bind_some]
    rw [handshakeDigest_inside hs1 (by decide)]
    simp only [Option.bind_some]
    rw [hstore, hbody, field_inside hc1 hbase.base_le]
    simp only [Option.bind_some, Option.pure_def, hmacSha256_eq]
    refine ⟨⟨signed, _⟩, rfl, hsize, ?_, fun _ _ _ => hsigned, ?_, ?_⟩
    · rw [List.length_append, hbodySize, hmac_length]
      rfl
    · intro other _ hother
      rw [List.drop_left' hbodySize, List.take_left' hbodySize, hbase.base_eq hother]
    · rintro (hnone | hnone)
      · exact absurd hasks hnone
      · exact absurd hbase (hnone base)
  · have hsimple : ∃ client, clientDigest c1 = some client ∧
        (complex && decide (client > 0)) = false := by
      by_cases hasks : AsksDigest c1
      · have hnone : ∀ base, ¬ ClientSigned base c1 := fun base hbase =>
          hdigest ⟨hasks, base, hbase⟩
        exact ⟨0, clientDigest_unsigned hc1 hnone, Bool.and_false _⟩
      · have hoff : complex = false := Bool.eq_false_iff.mpr fun h => hasks (hcomplex.mp h)
        by_cases hany : ∃ base, ClientSigned base c1
        · obtain ⟨base, hbase⟩ := hany
          exact ⟨_, clientDigest_signed hc1 hbase, by rw [hoff, Bool.false_and]⟩
        · exact ⟨0, clientDigest_unsigned hc1 (not_exists.mp hany), Bool.and_false _⟩
    obtain ⟨client, hclient, hif⟩ := hsimple
    rw [hclient]
    simp only [Option.bind_some]
    rw [if_neg (by rw [hif]; exact Bool.false_ne_true), hwhole]
    refine ⟨⟨s1, c1⟩, rfl, hs1, hc1, ?_, ?_, fun _ => rfl⟩
    · exact fun base hasks hbase => absurd ⟨hasks, base, hbase⟩ hdigest
    · exact fun base hasks hbase => absurd ⟨hasks, base, hbase⟩ hdigest

end

end RtmpHandshake
