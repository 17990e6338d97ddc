import NginxMedia.RtmpOutput

/-! What `ngx_media_rtmp_message_footprint()` reserves for a message and what the writer makes of
it: the same parts and slices, in headers that fill their buffer, and the same refusals. -/
namespace RtmpFootprint

open MediaTypes ByteString RtmpReader RtmpWriter RtmpOutput

variable {w w' : Writer} {out : Outgoing} {size chunks : ℕ} {head next : List UInt8}
  {data : Payload}

inductive Initialised : Writer → Prop where
  | init (chunkSize maxMessage : ℕ) : Initialised (.init chunkSize maxMessage)
  | message {w w' : Writer} {memory : Bool} {out : Outgoing} {parts : List (List UInt8)}
      (h : Initialised w) (hwritten : writerMessage memory w out = some (w', parts)) :
      Initialised w'

theorem Initialised.chunkSize_pos (h : Initialised w) : 0 < w.chunkSize := by
  induction h with
  | init chunkSize maxMessage =>
    unfold Writer.init
    dsimp only
    split_ifs with hsize
    · exact hsize.1
    · decide
  | message h hwritten ih => rwa [(writerMessage_keeps hwritten).1]

def headSize (w : Writer) (out : Outgoing) : ℕ :=
  chunkCount w.chunkSize out.len * (1 + if tsField w out ≥ 0xFFFFFF then 4 else 0) +
    if format w out = 0 then 11 else if format w out = 1 then 7 else 0

def headers (bufs : List Buf) : List Buf := bufs.filter fun b => !b.memory

theorem headers_step (chunks : ℕ) (data : Payload) :
    totalBytes (headers (chunkBufs size head next (chunks + 1) data)) =
      head.length + totalBytes (headers (chunkBufs size next next chunks (data.drop size))) := by
  rw [chunkBufs]
  unfold headers totalBytes
  split_ifs <;> simp

theorem headers_next (chunks : ℕ) (data : Payload) :
    totalBytes (headers (chunkBufs size next next chunks data)) = chunks * next.length := by
  induction chunks generalizing data with
  | zero =>
    rw [Nat.zero_mul]
    rfl
  | succ chunks ih => rw [headers_step, ih, Nat.succ_mul, Nat.add_comm]

theorem headers_chunkBufs (chunks : ℕ) (data : Payload) :
    totalBytes (headers (chunkBufs size head next (chunks + 1) data)) =
      head.length + chunks * next.length := by
  rw [headers_step, headers_next]

theorem chunkHead_three (out : Outgoing) (field : ℕ) :
    (chunkHead out 3 field).length = 1 + if field ≥ 0xFFFFFF then 4 else 0 := by
  unfold chunkHead
  dsimp only
  rw [if_pos rfl, List.nil_append]
  by_cases hext : field ≥ 0xFFFFFF
  · rw [decide_eq_true hext, if_pos rfl, if_pos hext]
    rfl
  · rw [decide_eq_false hext, if_neg Bool.noConfusion, if_neg hext]
    rfl

theorem format_size (w : Writer) (out : Outgoing) :
    (if format w out = 0 then 11 else if format w out = 1 then 7 else 0) =
      messageHeaderSize (format w out) := by
  have hfmt := format_lt w out
  unfold messageHeaderSize
  split_ifs <;> omega

theorem chunkCount_ne_zero (hsize : 0 < w.chunkSize) (len : ℕ) :
    chunkCount w.chunkSize len ≠ 0 := by
  rcases Nat.eq_zero_or_pos len with rfl | hlen
  · rw [chunkCount_zero hsize]
    exact Nat.one_ne_zero
  · exact Nat.ne_of_gt (chunkCount_spec hsize hlen).1

theorem headers_fill (hsize : 0 < w.chunkSize) (out : Outgoing) :
    totalBytes (headers (packetBufs w out)) = headSize w out := by
  unfold packetBufs headSize
  rw [format_size]
  obtain ⟨chunks, hchunks⟩ := Nat.exists_eq_succ_of_ne_zero (chunkCount_ne_zero hsize out.len)
  rw [hchunks, headers_chunkBufs, chunkHead_size (format_lt w out), chunkHead_three,
    Nat.succ_mul]
  omega

theorem footprint_none_iff (hsize : 0 < w.chunkSize) (len : ℕ) : footprint w len = none ↔
    len > w.maxMessage ∨ chunkCount w.chunkSize len * 2 > maxOutParts := by
  unfold footprint
  dsimp only
  rcases Nat.eq_zero_or_pos len with rfl | hlen
  · rw [chunkCount_zero hsize]
    split_ifs <;> simp [maxOutParts] <;> omega
  · rw [chunkCount_pos hsize hlen]
    split_ifs <;> simp <;> omega

theorem writerMessage_none_iff (hcsid : out.csid < maxOutCsid)
    (hpayload : out.len > 0 → out.payload ≠ none ∧ out.offset + out.len ≤ bufSize out.payload) :
    writerMessage true w out = none ↔
      out.len > w.maxMessage ∨ chunkCount w.chunkSize out.len * 2 > maxOutParts := by
  unfold writerMessage
  split_ifs with h1 h2 h3 h4 h5
  · exact iff_of_true rfl (Or.inl (h1.resolve_left (Nat.not_le_of_gt hcsid)))
  · exact absurd h2.2 (hpayload h2.1).1
  · exact absurd h3.2 (Nat.not_lt.mpr (hpayload h3.1).2)
  · exact iff_of_true rfl (Or.inr h4)
  · exact h5.elim
  · refine iff_of_false id ?_
    rintro (hlong | hmany)
    · exact h1 (Or.inr hlong)
    · exact h4 hmany

/-- The footprint is exactly what the writer then makes, and is refused exactly when the writer
refuses; the headers fill their buffer. -/
theorem footprint_exact (hw : Initialised w) (hcsid : out.csid < maxOutCsid)
    (hpayload : out.len > 0 → out.payload ≠ none ∧ out.offset + out.len ≤ bufSize out.payload) :
    (footprint w out.len = none ↔ writerMessage true w out = none) ∧
      ∀ w' parts, writerMessage true w out = some (w', parts) →
        parts = (packetBufs w out).map Buf.data ∧
        footprint w out.len = some (parts.length, references (packetBufs w out)) ∧
        totalBytes (headers (packetBufs w out)) = headSize w out := by
  have hsize := hw.chunkSize_pos
  have hnone : footprint w out.len = none ↔ writerMessage true w out = none :=
    (footprint_none_iff hsize _).trans (writerMessage_none_iff hcsid hpayload).symm
  refine ⟨hnone, fun w' parts hwritten => ?_⟩
  have hparts : parts = (packetBufs w out).map Buf.data := by
    unfold writerMessage at hwritten
    split_ifs at hwritten
    cases hwritten
    exact (chunkBufs_data _).symm
  have hdata := (writerMessage_keeps hwritten).2.2
  cases hfoot : footprint w out.len with
  | none =>
    rw [hnone.mp hfoot] at hwritten
    cases hwritten
  | some x =>
    obtain ⟨count, refs⟩ := x
    obtain ⟨hcount, hrefs⟩ := packetBufs_count hsize hdata hfoot
    exact ⟨hparts, by rw [hparts, List.length_map, hcount, hrefs], headers_fill hsize out⟩

/-- Three chunks of a message whose time needs the extended field. -/
theorem footprint_exact_extended :
    let w := Writer.init 4 100
    let out : Outgoing := ⟨6, 9, 1, 0xFFFFFF, some [1, 2, 3, 4, 5, 6, 7, 8, 9], 0, 9⟩
    footprint w out.len = some (6, 3) ∧ headSize w out = 26 := by
  have hexact := @footprint_exact (.init 4 100)
    ⟨6, 9, 1, 0xFFFFFF, some [1, 2, 3, 4, 5, 6, 7, 8, 9], 0, 9⟩ (.init 4 100) (by decide)
    (by decide)
  exact ⟨(hexact.2 _ _ rfl).2.1, (hexact.2 _ _ rfl).2.2.symm⟩

end RtmpFootprint
