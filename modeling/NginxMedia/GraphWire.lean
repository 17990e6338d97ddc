import NginxMedia.ByteString
import NginxMedia.MediaGraph

/-! Graph operations on the wire between workers: the fixed part, then the strings in field
order. Every access to a received payload is checked against its size, so that an access past
its end would show. -/
namespace GraphWire

open ByteString MediaGraph

structure Wire where
  kind : ℕ
  flags : ℕ
  revision : ℕ
  incarnation : ℕ
  sourceRevision : ℕ
  type : ℕ
  priority : ℕ
  enabled : ℕ
  failureTimeout : ℕ
  recoveryTimeout : ℕ
  mediaMode : ℕ
  applicationLen : ℕ
  nameLen : ℕ
  idLen : ℕ
  pathLen : ℕ
  caFileLen : ℕ
  keySet : ℕ
  keyHash : Str
  keyPrint : Str
  keyNonce : Str
  keyNonceSet : ℕ
  deriving DecidableEq, Repr

def keyHashBytes : ℕ := 32
def keyPrintBytes : ℕ := 12
def keyNonceBytes : ℕ := 16

def wireSize : ℕ := 144

def maxPayload : ℕ := 64 * 1024 - 96

/-- The fixed part in memory, which has no padding. -/
def Wire.bytes (w : Wire) : List UInt8 :=
  putWord 4 w.kind ++ (putWord 4 w.flags ++ (putWord 8 w.revision ++ (putWord 8 w.incarnation ++
    (putWord 8 w.sourceRevision ++ (putWord 4 w.type ++ (putWord 4 w.priority ++
    (putWord 4 w.enabled ++ (putWord 4 w.failureTimeout ++ (putWord 4 w.recoveryTimeout ++
    (putWord 4 w.mediaMode ++ (putWord 4 w.applicationLen ++ (putWord 4 w.nameLen ++
    (putWord 4 w.idLen ++ (putWord 4 w.pathLen ++ (putWord 4 w.caFileLen ++
    (putWord 4 w.keySet ++ (w.keyHash ++ (w.keyPrint ++ (w.keyNonce ++
    putWord 4 w.keyNonceSet)))))))))))))))))))

def Wire.read (p : List UInt8) : Wire :=
  let part := fun offset len => (p.drop offset).take len
  { kind := word (part 0 4)
    flags := word (part 4 4)
    revision := word (part 8 8)
    incarnation := word (part 16 8)
    sourceRevision := word (part 24 8)
    type := word (part 32 4)
    priority := word (part 36 4)
    enabled := word (part 40 4)
    failureTimeout := word (part 44 4)
    recoveryTimeout := word (part 48 4)
    mediaMode := word (part 52 4)
    applicationLen := word (part 56 4)
    nameLen := word (part 60 4)
    idLen := word (part 64 4)
    pathLen := word (part 68 4)
    caFileLen := word (part 72 4)
    keySet := word (part 76 4)
    keyHash := part 80 keyHashBytes
    keyPrint := part 112 keyPrintBytes
    keyNonce := part 124 keyNonceBytes
    keyNonceSet := word (part 140 4) }

def kindNumber : Kind → ℕ
  | .streamSet => 1
  | .streamDelete => 2
  | .sourceSet => 3
  | .sourceDelete => 4

def kindOf : ℕ → Option Kind
  | 1 => some .streamSet
  | 2 => some .streamDelete
  | 3 => some .sourceSet
  | 4 => some .sourceDelete
  | _ => none

def flag (b : Bool) : ℕ := if b then 1 else 0

/-- The fixed part of an operation; the casts to 32 bits are in `Wire.bytes`. -/
def Wire.of (op : Op) : Wire :=
  { kind := kindNumber op.kind
    flags := 0
    revision := op.revision
    incarnation := op.incarnation
    sourceRevision := op.sourceRevision
    type := op.type
    priority := op.priority
    enabled := flag op.enabled
    failureTimeout := op.failureTimeout
    recoveryTimeout := op.recoveryTimeout
    mediaMode := op.mediaMode
    applicationLen := op.application.length
    nameLen := op.name.length
    idLen := op.id.length
    pathLen := op.path.length
    caFileLen := op.caFile.length
    keySet := flag op.keySet
    keyHash := op.keyHash
    keyPrint := op.keyPrint
    keyNonce := op.keyNonce
    keyNonceSet := flag op.keyNonceSet }

def encode (op : Op) (allocs : Bool) : Option (List UInt8) :=
  if op.application.length = 0 ∨ op.name.length = 0 ∨ op.application.length > maxName ∨
      op.name.length > maxName ∨ op.id.length > maxName ∨ op.path.length > maxPath ∨
      op.caFile.length > maxPath ∨ op.priority > 2 ^ 32 - 1 ∨ op.failureTimeout > 2 ^ 32 - 1 ∨
      op.recoveryTimeout > 2 ^ 32 - 1 ∨ op.mediaMode > mediaProfile then none
  else if wireSize + op.application.length + op.name.length + op.id.length + op.path.length +
      op.caFile.length > maxPayload then none
  else if allocs = false then none
  else some ((Wire.of op).bytes ++ (op.application ++ (op.name ++ (op.id ++ (op.path ++ op.caFile)))))

/-- What `ngx_media_graph_decode()` comes to; `overread` is an access past the payload. -/
inductive Decoding where
  | accepted (op : Op)
  | refused
  | overread
  deriving DecidableEq, Repr

def access (p : List UInt8) (offset len : ℕ) : Option (List UInt8) :=
  if offset + len ≤ p.length then some ((p.drop offset).take len) else none

def strings (p : List UInt8) (w : Wire) : Option (Str × Str × Str × Str × Str) := do
  let application ← access p wireSize w.applicationLen
  let name ← access p (wireSize + w.applicationLen) w.nameLen
  let id ← access p (wireSize + w.applicationLen + w.nameLen) w.idLen
  let path ← access p (wireSize + w.applicationLen + w.nameLen + w.idLen) w.pathLen
  let caFile ← access p (wireSize + w.applicationLen + w.nameLen + w.idLen + w.pathLen) w.caFileLen
  return (application, name, id, path, caFile)

def Wire.announced (w : Wire) : ℕ :=
  wireSize + w.applicationLen + w.nameLen + w.idLen + w.pathLen + w.caFileLen

def decode (p : List UInt8) : Decoding :=
  if p.length < wireSize then .refused
  else
    match access p 0 wireSize with
    | none => .overread
    | some head =>
      let w := Wire.read head
      if p.length ≠ w.announced ∨ w.applicationLen = 0 ∨ w.nameLen = 0 then .refused
      else if w.applicationLen > maxName ∨ w.nameLen > maxName ∨ w.idLen > maxName ∨
          w.pathLen > maxPath ∨ w.caFileLen > maxPath then .refused
      else
        match kindOf w.kind with
        | none => .refused
        | some kind =>
          if kind ≠ .streamDelete ∧ w.incarnation = 0 then .refused
          else if w.mediaMode > mediaProfile then .refused
          else
            match strings p w with
            | none => .overread
            | some (application, name, id, path, caFile) =>
              .accepted
                { kind := kind
                  revision := w.revision
                  incarnation := w.incarnation
                  sourceRevision := w.sourceRevision
                  type := w.type
                  priority := w.priority
                  enabled := decide (w.enabled ≠ 0)
                  failureTimeout := w.failureTimeout
                  recoveryTimeout := w.recoveryTimeout
                  mediaMode := w.mediaMode
                  application := application
                  name := name
                  id := id
                  path := path
                  caFile := caFile
                  keySet := decide (w.keySet ≠ 0)
                  keyHash := w.keyHash
                  keyPrint := w.keyPrint
                  keyNonceSet := decide (w.keyNonceSet ≠ 0)
                  keyNonce := w.keyNonce }

theorem drop_behind {a b : List UInt8} {i : ℕ} (h : a.length ≤ i) :
    (a ++ b).drop i = b.drop (i - a.length) := by
  rw [List.drop_append, List.drop_of_length_le h, List.nil_append]

theorem take_front {a b : List UInt8} {n : ℕ} (h : a.length = n) : (a ++ b).take n = a :=
  List.take_left' h

/-- The values of a fixed part are those that its words hold. -/
structure Wire.Fits (w : Wire) : Prop where
  kind : w.kind < 256 ^ 4
  flags : w.flags < 256 ^ 4
  revision : w.revision < 256 ^ 8
  incarnation : w.incarnation < 256 ^ 8
  sourceRevision : w.sourceRevision < 256 ^ 8
  type : w.type < 256 ^ 4
  priority : w.priority < 256 ^ 4
  enabled : w.enabled < 256 ^ 4
  failureTimeout : w.failureTimeout < 256 ^ 4
  recoveryTimeout : w.recoveryTimeout < 256 ^ 4
  mediaMode : w.mediaMode < 256 ^ 4
  applicationLen : w.applicationLen < 256 ^ 4
  nameLen : w.nameLen < 256 ^ 4
  idLen : w.idLen < 256 ^ 4
  pathLen : w.pathLen < 256 ^ 4
  caFileLen : w.caFileLen < 256 ^ 4
  keySet : w.keySet < 256 ^ 4
  keyHash : w.keyHash.length = keyHashBytes
  keyPrint : w.keyPrint.length = keyPrintBytes
  keyNonce : w.keyNonce.length = keyNonceBytes
  keyNonceSet : w.keyNonceSet < 256 ^ 4

variable {w : Wire} {op : Op} {p : List UInt8}

theorem Wire.bytes_length (h : w.Fits) : w.bytes.length = wireSize := by
  simp [Wire.bytes, h.keyHash, h.keyPrint, h.keyNonce, keyHashBytes, keyPrintBytes,
    keyNonceBytes, wireSize]

theorem Wire.read_bytes (h : w.Fits) : Wire.read w.bytes = w := by
  obtain ⟨h1, h2, h3, h4, h5, h6, h7, h8, h9, h10, h11, h12, h13, h14, h15, h16, h17, h18, h19,
    h20, h21⟩ := h
  unfold keyHashBytes at h18
  unfold keyPrintBytes at h19
  unfold keyNonceBytes at h20
  cases w
  dsimp only at *
  unfold Wire.read Wire.bytes
  dsimp only [keyHashBytes, keyPrintBytes, keyNonceBytes]
  simp only [drop_behind, putWord_length, List.drop_zero, take_front, word_putWord, *,
    Nat.reduceSub, Nat.reduceLeDiff, Nat.le_refl, List.take_of_length_le, Nat.sub_self]

structure Encodable (op : Op) : Prop where
  application_pos : op.application ≠ []
  name_pos : op.name ≠ []
  application_le : op.application.length ≤ maxName
  name_le : op.name.length ≤ maxName
  id_le : op.id.length ≤ maxName
  path_le : op.path.length ≤ maxPath
  caFile_le : op.caFile.length ≤ maxPath
  priority_lt : op.priority < 2 ^ 32
  failureTimeout_lt : op.failureTimeout < 2 ^ 32
  recoveryTimeout_lt : op.recoveryTimeout < 2 ^ 32
  mediaMode_le : op.mediaMode ≤ mediaProfile
  type_lt : op.type < 2 ^ 32
  revision_lt : op.revision < 2 ^ 64
  incarnation_lt : op.incarnation < 2 ^ 64
  sourceRevision_lt : op.sourceRevision < 2 ^ 64
  keyHash_length : op.keyHash.length = keyHashBytes
  keyPrint_length : op.keyPrint.length = keyPrintBytes
  keyNonce_length : op.keyNonce.length = keyNonceBytes

theorem flag_lt (b : Bool) : flag b < 256 ^ 4 := by
  cases b <;> decide

theorem kindOf_kindNumber (kind : Kind) : kindOf (kindNumber kind) = some kind := by
  cases kind <;> rfl

theorem Encodable.wire (h : Encodable op) : (Wire.of op).Fits := by
  have h1 := h.application_le
  have h2 := h.name_le
  have h3 := h.id_le
  have h4 := h.path_le
  have h5 := h.caFile_le
  have h6 := h.mediaMode_le
  unfold maxName at h1 h2 h3
  unfold maxPath at h4 h5
  unfold mediaProfile at h6
  constructor
  · cases hk : op.kind <;> simp [Wire.of, kindNumber, hk]
  · exact Nat.pow_pos (by decide)
  · exact h.revision_lt
  · exact h.incarnation_lt
  · exact h.sourceRevision_lt
  · exact h.type_lt
  · exact h.priority_lt
  · exact flag_lt op.enabled
  · exact h.failureTimeout_lt
  · exact h.recoveryTimeout_lt
  · exact Nat.lt_of_le_of_lt h6 (by decide)
  · exact Nat.lt_of_le_of_lt h1 (by decide)
  · exact Nat.lt_of_le_of_lt h2 (by decide)
  · exact Nat.lt_of_le_of_lt h3 (by decide)
  · exact Nat.lt_of_le_of_lt h4 (by decide)
  · exact Nat.lt_of_le_of_lt h5 (by decide)
  · exact flag_lt op.keySet
  · exact h.keyHash_length
  · exact h.keyPrint_length
  · exact h.keyNonce_length
  · exact flag_lt op.keyNonceSet

theorem encode_encodable (h : Encodable op) :
    encode op true = some ((Wire.of op).bytes ++
      (op.application ++ (op.name ++ (op.id ++ (op.path ++ op.caFile))))) := by
  have h1 := h.application_le
  have h2 := h.name_le
  have h3 := h.id_le
  have h4 := h.path_le
  have h5 := h.caFile_le
  have h6 := List.length_pos_iff.mpr h.application_pos
  have h7 := List.length_pos_iff.mpr h.name_pos
  have h8 := h.priority_lt
  have h9 := h.failureTimeout_lt
  have h10 := h.recoveryTimeout_lt
  have h11 := h.mediaMode_le
  unfold encode
  rw [if_neg (by omega), if_neg (by simp only [maxName, maxPath, wireSize, maxPayload] at *; omega),
    if_neg (by simp)]

theorem access_middle {a b c : List UInt8} {offset len : ℕ} (ha : a.length = offset)
    (hb : b.length = len) : access (a ++ (b ++ c)) offset len = some b := by
  unfold access
  rw [if_pos (by simp only [List.length_append]; omega), List.drop_left' ha, List.take_left' hb]

theorem access_last {a b : List UInt8} {offset len : ℕ} (ha : a.length = offset)
    (hb : b.length = len) : access (a ++ b) offset len = some b := by
  have h := @access_middle a b [] offset len ha hb
  rwa [List.append_nil] at h

/-- An access within the payload is one more piece of it. -/
theorem access_piece {offset len : ℕ} (h : offset + len ≤ p.length) :
    ∃ s, access p offset len = some s ∧ s.length = len ∧
      p.drop offset = s ++ p.drop (offset + len) := by
  refine ⟨(p.drop offset).take len, ?_, ?_, ?_⟩
  · unfold access
    rw [if_pos h]
  · rw [List.length_take, List.length_drop]
    omega
  · rw [← List.drop_drop, List.take_append_drop]

theorem strings_encoded {head : List UInt8} (hlen : head.length = wireSize) (op : Op) :
    strings (head ++ (op.application ++ (op.name ++ (op.id ++ (op.path ++ op.caFile)))))
        (Wire.of op) =
      some (op.application, op.name, op.id, op.path, op.caFile) := by
  have h1 : access (head ++ (op.application ++ (op.name ++ (op.id ++ (op.path ++ op.caFile)))))
      wireSize op.application.length = some op.application := access_middle hlen rfl
  have h2 : access (head ++ (op.application ++ (op.name ++ (op.id ++ (op.path ++ op.caFile)))))
      (wireSize + op.application.length) op.name.length = some op.name := by
    rw [← List.append_assoc head]
    exact access_middle (by rw [List.length_append, hlen]) rfl
  have h3 : access (head ++ (op.application ++ (op.name ++ (op.id ++ (op.path ++ op.caFile)))))
      (wireSize + op.application.length + op.name.length) op.id.length = some op.id := by
    rw [← List.append_assoc head, ← List.append_assoc (head ++ op.application)]
    exact access_middle (by simp only [List.length_append, hlen]) rfl
  have h4 : access (head ++ (op.application ++ (op.name ++ (op.id ++ (op.path ++ op.caFile)))))
      (wireSize + op.application.length + op.name.length + op.id.length) op.path.length =
        some op.path := by
    rw [← List.append_assoc head, ← List.append_assoc (head ++ op.application),
      ← List.append_assoc (head ++ op.application ++ op.name)]
    exact access_middle (by simp only [List.length_append, hlen]) rfl
  have h5 : access (head ++ (op.application ++ (op.name ++ (op.id ++ (op.path ++ op.caFile)))))
      (wireSize + op.application.length + op.name.length + op.id.length + op.path.length)
      op.caFile.length = some op.caFile := by
    rw [← List.append_assoc head, ← List.append_assoc (head ++ op.application),
      ← List.append_assoc (head ++ op.application ++ op.name),
      ← List.append_assoc (head ++ op.application ++ op.name ++ op.id)]
    exact access_last (by simp only [List.length_append, hlen]) rfl
  simp only [strings, Wire.of, h1, h2, h3, h4, h5]
  rfl

/-- Within a payload of the announced size, every string is there: the payload behind the
fixed part is the strings, one after the other. -/
theorem strings_announced (hlen : p.length = w.announced) :
    ∃ application name id path caFile,
      strings p w = some (application, name, id, path, caFile) ∧
        p.drop wireSize = application ++ (name ++ (id ++ (path ++ caFile))) ∧
        application.length = w.applicationLen ∧ name.length = w.nameLen ∧
        id.length = w.idLen ∧ path.length = w.pathLen ∧ caFile.length = w.caFileLen := by
  unfold Wire.announced at hlen
  obtain ⟨application, h1, hl1, hd1⟩ := @access_piece p wireSize w.applicationLen (by omega)
  obtain ⟨name, h2, hl2, hd2⟩ :=
    @access_piece p (wireSize + w.applicationLen) w.nameLen (by omega)
  obtain ⟨id, h3, hl3, hd3⟩ :=
    @access_piece p (wireSize + w.applicationLen + w.nameLen) w.idLen (by omega)
  obtain ⟨path, h4, hl4, hd4⟩ :=
    @access_piece p (wireSize + w.applicationLen + w.nameLen + w.idLen) w.pathLen (by omega)
  obtain ⟨caFile, h5, hl5, hd5⟩ := @access_piece p
    (wireSize + w.applicationLen + w.nameLen + w.idLen + w.pathLen) w.caFileLen (by omega)
  refine ⟨application, name, id, path, caFile, ?_, ?_, hl1, hl2, hl3, hl4, hl5⟩
  · simp only [strings, h1, h2, h3, h4, h5]
    rfl
  · rw [hd1, hd2, hd3, hd4, hd5, ← hlen, List.drop_length, List.append_nil]

theorem flag_decide (b : Bool) : decide (flag b ≠ 0) = b := by
  cases b <;> rfl

theorem decode_encoded (h : Encodable op)
    (hincarnation : op.kind ≠ .streamDelete → op.incarnation ≠ 0) :
    decode ((Wire.of op).bytes ++
      (op.application ++ (op.name ++ (op.id ++ (op.path ++ op.caFile))))) = .accepted op := by
  have hlen := Wire.bytes_length h.wire
  have hread := Wire.read_bytes h.wire
  have hpos : 0 < op.application.length := List.length_pos_iff.mpr h.application_pos
  have hpos' : 0 < op.name.length := List.length_pos_iff.mpr h.name_pos
  have hsize : ((Wire.of op).bytes ++ (op.application ++ (op.name ++ (op.id ++ (op.path ++
      op.caFile))))).length = (Wire.of op).announced := by
    simp only [List.length_append, hlen]
    change _ = wireSize + op.application.length + op.name.length + op.id.length + op.path.length +
      op.caFile.length
    omega
  have hhead : access ((Wire.of op).bytes ++ (op.application ++ (op.name ++ (op.id ++ (op.path ++
      op.caFile))))) 0 wireSize = some (Wire.of op).bytes := by
    exact @access_middle [] (Wire.of op).bytes (op.application ++ (op.name ++ (op.id ++ (op.path ++
      op.caFile)))) 0 wireSize rfl hlen
  have hshort : ¬ (Wire.of op).announced < wireSize := by
    unfold Wire.announced
    omega
  unfold decode
  rw [hhead]
  dsimp only
  rw [hread, strings_encoded hlen, hsize, if_neg hshort]
  have h1 := h.application_le
  have h2 := h.name_le
  have h3 := h.id_le
  have h4 := h.path_le
  have h5 := h.caFile_le
  have h6 := h.mediaMode_le
  have hexact : ¬ ((Wire.of op).announced ≠ (Wire.of op).announced ∨
      (Wire.of op).applicationLen = 0 ∨ (Wire.of op).nameLen = 0) := by
    change ¬ (_ ∨ op.application.length = 0 ∨ op.name.length = 0)
    omega
  have hbudget : ¬ ((Wire.of op).applicationLen > maxName ∨ (Wire.of op).nameLen > maxName ∨
      (Wire.of op).idLen > maxName ∨ (Wire.of op).pathLen > maxPath ∨
      (Wire.of op).caFileLen > maxPath) := by
    change ¬ (op.application.length > maxName ∨ op.name.length > maxName ∨
      op.id.length > maxName ∨ op.path.length > maxPath ∨ op.caFile.length > maxPath)
    omega
  have hkind : kindOf (Wire.of op).kind = some op.kind := kindOf_kindNumber op.kind
  have hzero : ¬ (op.kind ≠ .streamDelete ∧ (Wire.of op).incarnation = 0) :=
    fun hc => hincarnation hc.1 hc.2
  have hmode : ¬ (Wire.of op).mediaMode > mediaProfile := Nat.not_lt.mpr h6
  rw [if_neg hexact, if_neg hbudget, hkind]
  dsimp only
  have henabled : decide ((Wire.of op).enabled ≠ 0) = op.enabled := flag_decide op.enabled
  have hkey : decide ((Wire.of op).keySet ≠ 0) = op.keySet := flag_decide op.keySet
  have hnonce : decide ((Wire.of op).keyNonceSet ≠ 0) = op.keyNonceSet := flag_decide op.keyNonceSet
  rw [if_neg hzero, if_neg hmode, henabled, hkey, hnonce]
  rfl

/-- What the decoder has accepted is as long as its own fields say, and the strings are all
of it behind the fixed part. -/
structure Exact (p : List UInt8) (op : Op) : Prop where
  size : p.length = (Wire.read (p.take wireSize)).announced
  application : op.application.length = (Wire.read (p.take wireSize)).applicationLen
  name : op.name.length = (Wire.read (p.take wireSize)).nameLen
  id : op.id.length = (Wire.read (p.take wireSize)).idLen
  path : op.path.length = (Wire.read (p.take wireSize)).pathLen
  caFile : op.caFile.length = (Wire.read (p.take wireSize)).caFileLen
  strings : p.drop wireSize = op.application ++ (op.name ++ (op.id ++ (op.path ++ op.caFile)))

theorem decode_spec (p : List UInt8) :
    decode p = .refused ∨ ∃ op, decode p = .accepted op ∧ Exact p op := by
  unfold decode
  by_cases hshort : p.length < wireSize
  · rw [if_pos hshort]
    exact Or.inl rfl
  · have hhead : access p 0 wireSize = some (p.take wireSize) := by
      unfold access
      rw [if_pos (by omega), List.drop_zero]
    rw [if_neg hshort, hhead]
    dsimp only
    by_cases hsize : p.length ≠ (Wire.read (p.take wireSize)).announced ∨
        (Wire.read (p.take wireSize)).applicationLen = 0 ∨
        (Wire.read (p.take wireSize)).nameLen = 0
    · rw [if_pos hsize]
      exact Or.inl rfl
    · have hlen : p.length = (Wire.read (p.take wireSize)).announced :=
        not_not.mp fun hne => hsize (Or.inl hne)
      obtain ⟨application, name, id, path, caFile, hstrings, hdrop, h1, h2, h3, h4, h5⟩ :=
        strings_announced hlen
      rw [if_neg hsize, hstrings]
      by_cases hbudget : (Wire.read (p.take wireSize)).applicationLen > maxName ∨
          (Wire.read (p.take wireSize)).nameLen > maxName ∨
          (Wire.read (p.take wireSize)).idLen > maxName ∨
          (Wire.read (p.take wireSize)).pathLen > maxPath ∨
          (Wire.read (p.take wireSize)).caFileLen > maxPath
      · rw [if_pos hbudget]
        exact Or.inl rfl
      · rw [if_neg hbudget]
        cases kindOf (Wire.read (p.take wireSize)).kind with
        | none => exact Or.inl rfl
        | some kind =>
          dsimp only
          split_ifs
          · exact Or.inl rfl
          · exact Or.inl rfl
          · exact Or.inr ⟨_, rfl, hlen, h1, h2, h3, h4, h5, hdrop⟩

/-- An operation within the encoder's budgets is decoded as it was encoded; and a payload is
accepted only at the size it announces, with no access past its end. -/
theorem wire_round_trip :
    (∀ op, Encodable op → (op.kind ≠ .streamDelete → op.incarnation ≠ 0) →
      ∃ p, encode op true = some p ∧ decode p = .accepted op) ∧
    (∀ p, decode p ≠ .overread) ∧ ∀ p op, decode p = .accepted op → Exact p op := by
  refine ⟨?_, ?_, ?_⟩
  · intro op h hincarnation
    exact ⟨_, encode_encodable h, decode_encoded h hincarnation⟩
  · intro p hover
    rcases decode_spec p with h | ⟨op, h, -⟩
    · rw [h] at hover
      contradiction
    · rw [h] at hover
      contradiction
  · intro p op haccept
    rcases decode_spec p with h | ⟨op', h, hexact⟩
    · rw [h] at haccept
      contradiction
    · rw [h] at haccept
      obtain rfl := Decoding.accepted.inj haccept
      exact hexact

def cameraOp : Op :=
  { kind := .sourceSet
    revision := 7
    incarnation := 2 ^ 63
    sourceRevision := 3
    type := 4
    priority := 1
    enabled := true
    failureTimeout := 0
    recoveryTimeout := 0
    mediaMode := 1
    application := [97]
    name := [98, 99]
    id := [100]
    path := [47, 120]
    caFile := []
    keySet := true
    keyHash := List.replicate 32 5
    keyPrint := List.replicate 12 6
    keyNonceSet := false
    keyNonce := List.replicate 16 0 }

theorem wire_round_trip_camera :
    ∃ p, encode cameraOp true = some p ∧ decode p = .accepted cameraOp :=
  wire_round_trip.1 cameraOp (by constructor <;> decide) (by decide)

end GraphWire
