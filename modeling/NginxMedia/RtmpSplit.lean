import Mathlib.Data.List.Induction
import NginxMedia.RtmpReader

/-! Cutting a byte stream into calls of the chunk reader. A header that is not complete is
parsed again from its first byte when more has come, so what a first attempt left in the
chunk stream has to be what the second one leaves. It is, but for one header form: `Inside`
names it, and `split_invariance` says that it is the only one. -/
namespace RtmpSplit

open MediaTypes ByteString RtmpReader

variable {host : Host} {r r₁ : Reader} {s s' : State} {cs : ChunkStream}
  {buffered fmt csid h n : ℕ} {b : List UInt8}

theorem basicHeader_append {x : ℕ × ℕ × ℕ} (hne : b ≠ []) (hb : basicHeader b = some x)
    (c : List UInt8) : basicHeader (b ++ c) = some x := by
  have hpos := List.length_pos_iff.mpr hne
  have hzero : byteAt (b ++ c) 0 = byteAt b 0 := byteAt_append hpos c
  rw [← hb]
  unfold basicHeader at hb ⊢
  dsimp only at hb ⊢
  rw [hzero, List.length_append]
  split_ifs at hb ⊢ with h0 h1 h2 h3 h4 h5
  · omega
  · rw [byteAt_append (by omega)]
  · omega
  · rw [byteAt_append (by omega), byteAt_append (by omega)]
  · rfl

theorem basicHeader_fmt {x : ℕ × ℕ × ℕ} (hb : basicHeader b = some x) : x.1 < 4 := by
  have := byteAt_lt b 0
  unfold basicHeader at hb
  dsimp only at hb
  split_ifs at hb <;> cases hb <;> dsimp only <;> omega

theorem headerFields_append (hfmt : fmt < 3) (hle : h + messageHeaderSize fmt ≤ b.length)
    (buffered : ℕ) (cs : ChunkStream) (c : List UInt8) :
    headerFields buffered cs fmt h (b ++ c) = headerFields buffered cs fmt h b := by
  unfold headerFields
  obtain rfl | rfl | rfl : fmt = 0 ∨ fmt = 1 ∨ fmt = 2 := by omega
  · have hlen : h + 11 ≤ b.length := hle
    rw [be24_append (i := h) (by omega), be24_append (i := h + 3) (by omega),
      byteAt_append (by omega), be32_append (by omega)]
  · have hlen : h + 7 ≤ b.length := hle
    rw [be24_append (i := h) (by omega), be24_append (i := h + 3) (by omega),
      byteAt_append (by omega)]
    simp only [if_neg (show ¬ (1 : ℕ) = 0 by decide)]
  · have hlen : h + 3 ≤ b.length := hle
    rw [be24_append hlen]
    simp only [if_neg (show ¬ (2 : ℕ) = 0 by decide), if_true]

theorem headerFields_again (buffered : ℕ) (cs : ChunkStream) (fmt h : ℕ) (b : List UInt8) :
    headerFields (headerFields buffered cs fmt h b).1 (headerFields buffered cs fmt h b).2 fmt h b =
      headerFields buffered cs fmt h b := by
  unfold headerFields release
  by_cases h0 : fmt = 0
  · subst h0
    cases cs.payload <;> simp
  · by_cases h2 : fmt = 2
    · subst h2
      simp
    · cases cs.payload <;> simp [h0, h2]

theorem messageHeader_append (hfmt : fmt < 3)
    (hm : (messageHeader buffered cs fmt h b).2.2 = some n) (c : List UInt8) :
    messageHeader buffered cs fmt h (b ++ c) = messageHeader buffered cs fmt h b := by
  have hsize : 3 ≤ messageHeaderSize fmt := by
    unfold messageHeaderSize
    split_ifs <;> omega
  unfold messageHeader at hm ⊢
  dsimp only at hm ⊢
  by_cases hshort : b.length < h + messageHeaderSize fmt
  · simp [hshort] at hm
  · have hle := Nat.le_of_not_lt hshort
    have hlong : ¬ (b ++ c).length < h + messageHeaderSize fmt := by
      rw [List.length_append]
      omega
    rw [if_neg hshort] at hm ⊢
    rw [if_neg hlong, headerFields_append hfmt hle, be24_append (by omega)]
    by_cases hext : be24 b h = 0xFFFFFF
    · rw [if_pos hext] at hm ⊢
      rw [if_pos hext]
      by_cases hfour : b.length < h + messageHeaderSize fmt + 4
      · simp [hfour] at hm
      · have hlong4 : ¬ (b ++ c).length < h + messageHeaderSize fmt + 4 := by
          rw [List.length_append]
          omega
        rw [if_neg hfour, if_neg hlong4, be32_append (Nat.le_of_not_lt hfour)]
    · rw [if_neg hext, if_neg hext]

theorem messageHeader_resume (hfmt : fmt < 3)
    (hm : (messageHeader buffered cs fmt h b).2.2 = none) (c : List UInt8) :
    messageHeader (messageHeader buffered cs fmt h b).1 (messageHeader buffered cs fmt h b).2.1 fmt
      h (b ++ c) = messageHeader buffered cs fmt h (b ++ c) := by
  by_cases hshort : b.length < h + messageHeaderSize fmt
  · have hsame : messageHeader buffered cs fmt h b = (buffered, cs, none) := if_pos hshort
    rw [hsame]
  · have hle := Nat.le_of_not_lt hshort
    have hlong : ¬ (b ++ c).length < h + messageHeaderSize fmt := by
      rw [List.length_append]
      omega
    have hfields : (messageHeader buffered cs fmt h b).1 = (headerFields buffered cs fmt h b).1 ∧
        (messageHeader buffered cs fmt h b).2.1 = (headerFields buffered cs fmt h b).2 := by
      unfold messageHeader at hm ⊢
      dsimp only at hm ⊢
      split_ifs at hm ⊢
      exact ⟨rfl, rfl⟩
    rw [hfields.1, hfields.2]
    unfold messageHeader
    dsimp only
    rw [if_neg hlong, if_neg hlong, headerFields_append hfmt hle, headerFields_append hfmt hle,
      headerFields_again]

def Restarts (cs : ChunkStream) : Prop := cs.extended = true ∧ cs.Idle ∧ cs.delta ≠ 0

theorem repeatHeader_again (hr : ¬ Restarts (repeatHeader cs))
    (hext : (repeatHeader cs).extended = true) : repeatHeader (repeatHeader cs) = repeatHeader cs := by
  by_cases hi : cs.Idle
  · have hcs : repeatHeader cs = { cs with received := 0, timestamp := cs.timestamp + cs.delta } :=
      if_pos hi
    by_cases hagain : (repeatHeader cs).Idle
    · have hdelta : cs.delta = 0 := by
        by_contra hne
        refine hr ⟨hext, hagain, ?_⟩
        rw [hcs]
        exact hne
      have : repeatHeader (repeatHeader cs) = { repeatHeader cs with
          received := 0, timestamp := (repeatHeader cs).timestamp + (repeatHeader cs).delta } :=
        if_pos hagain
      rw [this, hcs]
      simp [hdelta]
    · exact if_neg hagain
  · have hcs : repeatHeader cs = cs := if_neg hi
    rw [hcs, hcs]

theorem chunkHeader_append (hfmt : fmt < 4)
    (hc : (chunkHeader buffered cs fmt h b).2.2 = some n) (c : List UInt8) :
    chunkHeader buffered cs fmt h (b ++ c) = chunkHeader buffered cs fmt h b := by
  unfold chunkHeader at hc ⊢
  by_cases h3 : fmt = 3
  · rw [if_pos h3] at hc ⊢
    rw [if_pos h3]
    unfold continuation at hc ⊢
    dsimp only at hc ⊢
    by_cases hext : (repeatHeader cs).extended = true
    · rw [if_pos hext] at hc ⊢
      rw [if_pos hext]
      by_cases hshort : b.length < h + 4
      · simp [hshort] at hc
      · rw [if_neg hshort, if_neg (by rw [List.length_append]; omega)]
    · rw [if_neg hext, if_neg hext]
  · rw [if_neg h3] at hc ⊢
    rw [if_neg h3]
    exact messageHeader_append (by omega) hc c

theorem chunkHeader_resume (hfmt : fmt < 4)
    (hc : (chunkHeader buffered cs fmt h b).2.2 = none)
    (hr : fmt = 3 → ¬ Restarts (chunkHeader buffered cs fmt h b).2.1) (c : List UInt8) :
    chunkHeader (chunkHeader buffered cs fmt h b).1 (chunkHeader buffered cs fmt h b).2.1 fmt h
      (b ++ c) = chunkHeader buffered cs fmt h (b ++ c) := by
  unfold chunkHeader at hc hr ⊢
  by_cases h3 : fmt = 3
  · simp only [if_pos h3] at hc hr ⊢
    have hext : (repeatHeader cs).extended = true := by
      by_contra hne
      unfold continuation at hc
      simp [hne] at hc
    have hsaved : (continuation buffered cs h b).1 = buffered ∧
        (continuation buffered cs h b).2.1 = repeatHeader cs := by
      unfold continuation
      dsimp only
      split_ifs <;> exact ⟨rfl, rfl⟩
    rw [hsaved.2] at hr
    have hagain := repeatHeader_again (hr h3) hext
    rw [hsaved.1, hsaved.2]
    unfold continuation
    rw [hagain]
  · simp only [if_neg h3] at hc ⊢
    exact messageHeader_resume (by omega) hc c

theorem setCs_setCs (r : Reader) (csid buffered buffered' : ℕ) (cs cs' : ChunkStream) :
    setCs { setCs { r with buffered := buffered } csid cs with buffered := buffered' } csid cs' =
      setCs { r with buffered := buffered' } csid cs' := by
  simp [setCs]

theorem parseHeader_append (hne : b ≠ []) (hp : ∀ r₁, parseHeader host r b ≠ .more r₁)
    (c : List UInt8) : parseHeader host r (b ++ c) = parseHeader host r b := by
  unfold parseHeader at hp ⊢
  cases hb : basicHeader b with
  | none => simp [hb] at hp
  | some x =>
    obtain ⟨fmt, csid, h⟩ := x
    have hfmt : fmt < 4 := basicHeader_fmt hb
    rw [basicHeader_append hne hb]
    simp only [hb] at hp ⊢
    cases hg : csGet r csid (fmt != 3) with
    | none => rfl
    | some y =>
      obtain ⟨r₀, cs⟩ := y
      simp only [hg] at hp ⊢
      rcases hc : chunkHeader r₀.buffered cs fmt h b with ⟨buffered, cs₁, _ | m⟩
      · simp [hc] at hp
      · rw [chunkHeader_append hfmt (by rw [hc]), hc]

def Inside (r : Reader) (left : List UInt8) : Prop :=
  r.pendingRemaining = 0 ∧ ∃ csid h cs, basicHeader left = some (3, csid, h) ∧
    r.chunks csid = some cs ∧ left.length < h + 4 ∧ Restarts cs

theorem csGet_pending {create : Bool} {x : Reader × ChunkStream}
    (hg : csGet r csid create = some x) : x.1.pendingRemaining = r.pendingRemaining := by
  unfold csGet at hg
  cases hl : r.chunks csid with
  | some cs' =>
    simp only [hl] at hg
    cases hg
    rfl
  | none =>
    simp only [hl] at hg
    split_ifs at hg
    cases hg
    rfl

theorem csGet_setCs (r : Reader) (csid : ℕ) (cs : ChunkStream) (create : Bool) :
    csGet (setCs r csid cs) csid create = some (setCs r csid cs, cs) := by
  simp [csGet, setCs]

theorem continuation_short (hc : (chunkHeader buffered cs 3 h b).2.2 = none) : b.length < h + 4 := by
  by_contra hlong
  unfold chunkHeader continuation at hc
  simp only [if_true, if_neg hlong] at hc
  split_ifs at hc

theorem parseHeader_resume (hne : b ≠ []) (hp : parseHeader host r b = .more r₁)
    (hpend : r.pendingRemaining = 0) (hin : ¬ Inside r₁ b) (c : List UInt8) :
    r₁.pendingRemaining = 0 ∧ parseHeader host r₁ (b ++ c) = parseHeader host r (b ++ c) := by
  unfold parseHeader at hp
  cases hb : basicHeader b with
  | none =>
    simp only [hb, Parsed.more.injEq] at hp
    subst hp
    exact ⟨hpend, rfl⟩
  | some x =>
    obtain ⟨fmt, csid, h⟩ := x
    have hfmt : fmt < 4 := basicHeader_fmt hb
    simp only [hb] at hp
    cases hg : csGet r csid (fmt != 3) with
    | none =>
      rw [hg] at hp
      cases hp
    | some y =>
      obtain ⟨r₀, cs⟩ := y
      have hpend₀ : r₀.pendingRemaining = r.pendingRemaining := csGet_pending hg
      simp only [hg] at hp
      rcases hc : chunkHeader r₀.buffered cs fmt h b with ⟨buffered, cs₁, _ | m⟩
      · simp only [hc, Parsed.more.injEq] at hp
        subst hp
        have hlater : (setCs { r₀ with buffered := buffered } csid cs₁).pendingRemaining = 0 :=
          hpend₀.trans hpend
        refine ⟨hlater, ?_⟩
        have hresume := chunkHeader_resume hfmt (by rw [hc]) (by
          intro h3 hr
          rw [hc] at hr
          refine hin ⟨hlater, csid, h, cs₁, by rw [hb, h3], by simp [setCs], ?_, hr⟩
          rw [h3] at hc
          exact continuation_short (by rw [hc])) c
        rw [hc] at hresume
        unfold parseHeader
        rw [basicHeader_append hne hb]
        dsimp only
        rw [csGet_setCs, hg]
        dsimp only
        have hbuf : (setCs { r₀ with buffered := buffered } csid cs₁).buffered = buffered := rfl
        rw [hbuf, hresume]
        rcases chunkHeader r₀.buffered cs fmt h (b ++ c) with ⟨buffered', cs₂, _ | m⟩
        · dsimp only
          rw [setCs_setCs]
        · dsimp only
          rw [setCs_setCs]
      · exfalso
        simp only [hc] at hp
        unfold openMessage at hp
        dsimp only at hp
        split_ifs at hp

theorem payloadStep_append (hw : wanted s.reader cs ≤ b.length) (c : List UInt8) :
    payloadStep host s csid cs (b ++ c) = payloadStep host s csid cs b := by
  unfold payloadStep
  rw [List.take_append_of_le_length hw]

theorem copied_copied (cs : ChunkStream) (a p : List UInt8) :
    copied (copied cs a) p = copied cs (a ++ p) := by
  by_cases hp : p = []
  · subst hp
    simp [copied]
  · by_cases ha : a = []
    · subst ha
      simp [copied]
    · have htake : ∀ old : Payload, (old.take cs.received ++ a).take (cs.received + a.length) =
          old.take cs.received ++ a := by
        intro old
        apply List.take_of_length_le
        rw [List.length_append, List.length_take]
        omega
      have hpayload : (cs.payload.map fun old => old.take cs.received ++ a).map
          (fun old => old.take (cs.received + a.length) ++ p) =
          cs.payload.map fun old => old.take cs.received ++ (a ++ p) := by
        cases cs.payload with
        | none => rfl
        | some old => simp only [Option.map_some, htake, List.append_assoc]
      unfold copied
      simp only [if_neg hp, if_neg ha, if_neg (show ¬ a ++ p = [] by simp [ha]), hpayload,
        List.length_append, Nat.add_assoc]

theorem advance_advance (r : Reader) (csid : ℕ) (cs : ChunkStream) (a p : List UInt8) :
    advance (advance r csid cs a) csid (copied cs a) p = advance r csid cs (a ++ p) := by
  simp [advance, setCs, copied_copied, Nat.sub_sub]

theorem wanted_advance (r : Reader) (csid : ℕ) (cs : ChunkStream) (a : List UInt8) :
    wanted (advance r csid cs a) (copied cs a) = wanted r cs - a.length := by
  have hpend : (advance r csid cs a).pendingRemaining = r.pendingRemaining - a.length := rfl
  rw [wanted, wanted, copied_received, copied_length, hpend]
  omega

theorem payloadStep_short (hw : b.length < wanted s.reader cs) :
    payloadStep host s csid cs b = .next ⟨advance s.reader csid cs b, s.delivered⟩ b.length := by
  have htake : b.take (wanted s.reader cs) = b := List.take_of_length_le (Nat.le_of_lt hw)
  unfold payloadStep
  rw [htake]
  dsimp only
  rw [if_neg]
  rw [copied_received, copied_length]
  unfold wanted at hw
  omega

theorem payloadStep_resume (hw : b.length < wanted s.reader cs) (c : List UInt8) :
    payloadStep host s csid cs (b ++ c) =
      (payloadStep host ⟨advance s.reader csid cs b, s.delivered⟩ csid (copied cs b) c).after
        b.length := by
  have htake : (b ++ c).take (wanted s.reader cs) = b ++ c.take (wanted s.reader cs - b.length) := by
    rw [List.take_append, List.take_of_length_le (Nat.le_of_lt hw)]
  unfold payloadStep
  dsimp only
  rw [htake, wanted_advance, advance_advance, copied_copied, List.length_append]
  split_ifs
  · rcases complete host _ csid _ with ⟨t, rc⟩
    cases rc <;> rfl
  · rfl

theorem payloadStep_not_stop (host : Host) (s t : State) (csid : ℕ) (cs : ChunkStream)
    (bytes : List UInt8) : payloadStep host s csid cs bytes ≠ .stop t := by
  unfold payloadStep
  dsimp only
  split_ifs
  · rcases complete host _ csid _ with ⟨t, rc⟩
    cases rc <;> simp
  · simp

theorem openMessage_ready {r' : Reader} {csid' : ℕ} {cs' : ChunkStream}
    (ho : openMessage host r csid cs h = .ready r' csid' cs' n) :
    r'.pendingCsid = csid' ∧ r'.chunks csid' = some cs' := by
  unfold openMessage at ho
  dsimp only at ho
  split_ifs at ho <;> cases ho <;> exact ⟨rfl, by simp [setCs]⟩

theorem parseHeader_ready {r' : Reader} {cs' : ChunkStream}
    (hp : parseHeader host r b = .ready r' csid cs' h) :
    r'.pendingCsid = csid ∧ r'.chunks csid = some cs' := by
  unfold parseHeader at hp
  split at hp
  · cases hp
  · split at hp
    · cases hp
    · split at hp
      · cases hp
      · exact openMessage_ready hp

theorem pass_pending (hpend : 0 < s.reader.pendingRemaining) (hid : s.reader.pendingCsid = csid)
    (hcs : s.reader.chunks csid = some cs) (bytes : List UInt8) :
    loopStep host s bytes = payloadStep host s csid cs bytes := by
  unfold loopStep
  rw [if_pos hpend, hid, hcs]

theorem cut_payload (hid : s.reader.pendingCsid = csid) (hw : b.length < wanted s.reader cs)
    (c : List UInt8) :
    payloadStep host s csid cs (b ++ c) =
      (loopStep host ⟨advance s.reader csid cs b, s.delivered⟩ c).after b.length := by
  have hpend : 0 < (advance s.reader csid cs b).pendingRemaining := by
    have : (advance s.reader csid cs b).pendingRemaining =
        s.reader.pendingRemaining - b.length := rfl
    unfold wanted at hw
    omega
  have hpass := @pass_pending host ⟨advance s.reader csid cs b, s.delivered⟩ (copied cs b) csid
    hpend hid (by simp [advance, setCs])
  rw [payloadStep_resume hw, hpass]

theorem Step.after_after (x : Step) (h n : ℕ) : (x.after n).after h = x.after (h + n) := by
  cases x <;> simp [Step.after, Nat.add_assoc]

theorem pass_ready {h : ℕ} (hpend : ¬s.reader.pendingRemaining > 0)
    (hh : parseHeader host s.reader b = .ready r csid cs h) :
    loopStep host s b = (payloadStep host ⟨r, s.delivered⟩ csid cs (b.drop h)).after h := by
  unfold loopStep
  rw [if_neg hpend, hh]

theorem pass_append (hne : b ≠ []) (hp : loopStep host s b = .next s' n) :
    n ≤ b.length ∧ ((∀ c, loopStep host s (b ++ c) = .next s' n) ∨
      (n = b.length ∧ 0 < s'.reader.pendingRemaining ∧
        ∀ c, loopStep host s (b ++ c) = (loopStep host s' c).after n)) := by
  have hpay : ∀ (t : State) (csid : ℕ) (cs : ChunkStream) (a : List UInt8) (s' : State) (n : ℕ),
      t.reader.pendingCsid = csid → payloadStep host t csid cs a = .next s' n →
      n ≤ a.length ∧ ((∀ c, payloadStep host t csid cs (a ++ c) = .next s' n) ∨
        (n = a.length ∧ 0 < s'.reader.pendingRemaining ∧
          ∀ c, payloadStep host t csid cs (a ++ c) = (loopStep host s' c).after n)) := by
    intro t csid cs a s' n hid hstep
    refine ⟨(payloadStep_next hstep).1, ?_⟩
    by_cases hw : wanted t.reader cs ≤ a.length
    · left
      intro c
      rw [payloadStep_append hw, hstep]
    · right
      have hlt := Nat.lt_of_not_le hw
      rw [payloadStep_short hlt] at hstep
      cases hstep
      refine ⟨rfl, ?_, cut_payload hid hlt⟩
      have : (advance t.reader csid cs a).pendingRemaining =
          t.reader.pendingRemaining - a.length := rfl
      unfold wanted at hlt
      dsimp only
      omega
  by_cases hpend : s.reader.pendingRemaining > 0
  · cases hcs : s.reader.chunks s.reader.pendingCsid with
    | none =>
      unfold loopStep at hp
      rw [if_pos hpend, hcs] at hp
      cases hp
    | some cs =>
      have heq := @pass_pending host s cs _ hpend rfl hcs
      rw [heq] at hp
      have := hpay s _ cs b s' n rfl hp
      simpa only [heq] using this
  · rcases hh : parseHeader host s.reader b with r₁ | r₁ | ⟨r₁, csid, cs, h⟩
    · rw [loopStep, if_neg hpend, hh] at hp
      cases hp
    · rw [loopStep, if_neg hpend, hh] at hp
      cases hp
    · have hle := (parseHeader_size hne hh).2
      have hsame : ∀ c, parseHeader host s.reader (b ++ c) = .ready r₁ csid cs h := by
        intro c
        rw [parseHeader_append hne (by simp [hh]), hh]
      have hdrop : ∀ c, (b ++ c).drop h = b.drop h ++ c := by
        intro c
        rw [List.drop_append_of_le_length hle]
      rw [pass_ready hpend hh] at hp
      rcases hs : payloadStep host ⟨r₁, s.delivered⟩ csid cs (b.drop h) with _ | _ | ⟨t, m⟩
      · rw [hs] at hp
        cases hp
      · rw [hs] at hp
        cases hp
      · rw [hs] at hp
        cases hp
        obtain ⟨hm, hcases⟩ := hpay ⟨r₁, s.delivered⟩ csid cs (b.drop h) s' m
          (parseHeader_ready hh).1 hs
        rw [List.length_drop] at hm hcases
        refine ⟨by omega, ?_⟩
        rcases hcases with hall | ⟨hlen, hpos, hall⟩
        · left
          intro c
          rw [pass_ready hpend (hsame c), hdrop, hall]
          rfl
        · right
          refine ⟨by omega, hpos, ?_⟩
          intro c
          rw [pass_ready hpend (hsame c), hdrop, hall, Step.after_after]

theorem pass_fail_append (hne : b ≠ []) (hp : loopStep host s b = .fail s' n) (c : List UInt8) :
    loopStep host s (b ++ c) = .fail s' n := by
  have hpay : ∀ (t : State) (csid : ℕ) (cs : ChunkStream) (a : List UInt8) (s' : State) (n : ℕ),
      payloadStep host t csid cs a = .fail s' n →
      payloadStep host t csid cs (a ++ c) = .fail s' n := by
    intro t csid cs a s' n hstep
    by_cases hw : wanted t.reader cs ≤ a.length
    · rw [payloadStep_append hw, hstep]
    · rw [payloadStep_short (Nat.lt_of_not_le hw)] at hstep
      cases hstep
  unfold loopStep at hp ⊢
  by_cases hpend : s.reader.pendingRemaining > 0
  · rw [if_pos hpend] at hp ⊢
    cases hcs : s.reader.chunks s.reader.pendingCsid with
    | none =>
      rw [hcs] at hp
      exact hp
    | some cs =>
      rw [hcs] at hp
      exact hpay s _ cs b s' n hp
  · rw [if_neg hpend] at hp ⊢
    rcases hh : parseHeader host s.reader b with r₁ | r₁ | ⟨r₁, csid, cs, h⟩
    · simp [hh] at hp
    · rw [parseHeader_append hne (by simp [hh]), hh]
      rw [hh] at hp
      exact hp
    · rw [parseHeader_append hne (by simp [hh]), hh]
      rw [hh] at hp
      dsimp only at hp ⊢
      rw [List.drop_append_of_le_length (parseHeader_size hne hh).2]
      rcases hs : payloadStep host ⟨r₁, s.delivered⟩ csid cs (b.drop h) with _ | ⟨t, m⟩ | _
      · rw [hs] at hp
        cases hp
      · rw [hpay _ _ _ _ _ _ hs, ← hs]
        exact hp
      · rw [hs] at hp
        cases hp

theorem pass_stop_append (hne : b ≠ []) (hp : loopStep host s b = .stop s')
    (hin : ¬ Inside s'.reader b) (c : List UInt8) :
    loopStep host s' (b ++ c) = loopStep host s (b ++ c) := by
  unfold loopStep at hp
  by_cases hpend : s.reader.pendingRemaining > 0
  · rw [if_pos hpend] at hp
    cases hcs : s.reader.chunks s.reader.pendingCsid with
    | none =>
      rw [hcs] at hp
      cases hp
    | some cs =>
      rw [hcs] at hp
      exact absurd hp (payloadStep_not_stop _ _ _ _ _ _)
  · rw [if_neg hpend] at hp
    rcases hh : parseHeader host s.reader b with r₁ | r₁ | ⟨r₁, csid, cs, h⟩
    · simp only [hh] at hp
      cases hp
      obtain ⟨hzero, hresume⟩ := parseHeader_resume hne hh (Nat.eq_zero_of_not_pos hpend) hin c
      have hnot : ¬ (⟨r₁, s.delivered⟩ : State).reader.pendingRemaining > 0 := by
        dsimp only
        omega
      unfold loopStep
      rw [if_neg hpend, if_neg hnot]
      dsimp only
      rw [hresume]
    · simp [hh] at hp
    · simp only [hh] at hp
      rcases hs : payloadStep host ⟨r₁, s.delivered⟩ csid cs (b.drop h) with t | _ | _
      · exact absurd hs (payloadStep_not_stop _ _ _ _ _ _)
      · rw [hs] at hp
        cases hp
      · rw [hs] at hp
        cases hp

theorem feedLoop_nil (host : Host) (s : State) : feedLoop host s [] = (s, 0, .ok) := by
  rw [feedLoop, dif_pos rfl]

theorem feedLoop_pass (hne : b ≠ []) :
    feedLoop host s b =
      match loopStep host s b with
      | .stop s => (s, 0, .ok)
      | .fail s n => (s, n, .error)
      | .next s n =>
        ((feedLoop host s (b.drop n)).1, n + (feedLoop host s (b.drop n)).2.1,
          (feedLoop host s (b.drop n)).2.2) := by
  rw [feedLoop, dif_neg hne]
  rcases hp : loopStep host s b with t | ⟨t, n⟩ | ⟨t, n⟩
  · split <;> simp_all
  · split <;> simp_all
  · split <;> simp_all

/-- A call followed by a call with the bytes it left and some more is one call, unless the
first stops inside the one header form; a call that fails fails whatever follows. -/
theorem feedLoop_append (host : Host) (s : State) (b c : List UInt8) :
    ((feedLoop host s b).2.2 = .ok →
      ¬ Inside (feedLoop host s b).1.reader (b.drop (feedLoop host s b).2.1) →
      feedLoop host s (b ++ c) =
        ((feedLoop host (feedLoop host s b).1 (b.drop (feedLoop host s b).2.1 ++ c)).1,
          (feedLoop host s b).2.1 +
            (feedLoop host (feedLoop host s b).1 (b.drop (feedLoop host s b).2.1 ++ c)).2.1,
          (feedLoop host (feedLoop host s b).1 (b.drop (feedLoop host s b).2.1 ++ c)).2.2)) ∧
    ((feedLoop host s b).2.2 ≠ .ok → feedLoop host s (b ++ c) = feedLoop host s b) := by
  induction hm : measure s b using Nat.strongRecOn generalizing s b with
  | ind k ih =>
    by_cases hne : b = []
    · subst hne
      rw [feedLoop_nil]
      simp
    · have hcne : b ++ c ≠ [] := by simp [hne]
      rcases hp : loopStep host s b with t | ⟨t, n⟩ | ⟨t, n⟩
      · have hloop : feedLoop host s b = (t, 0, .ok) := by rw [feedLoop_pass hne, hp]
        rw [hloop]
        refine ⟨fun _ hin => ?_, fun h => absurd rfl h⟩
        have hsame := pass_stop_append hne hp hin c
        have hagain : feedLoop host t (b ++ c) = feedLoop host s (b ++ c) := by
          rw [feedLoop_pass hcne, feedLoop_pass hcne, hsame]
        dsimp only
        rw [List.drop_zero, hagain, Nat.zero_add]
      · have hloop : feedLoop host s b = (t, n, .error) := by rw [feedLoop_pass hne, hp]
        rw [hloop]
        refine ⟨fun h => absurd h (by simp), fun _ => ?_⟩
        rw [feedLoop_pass hcne, pass_fail_append hne hp]
      · have hloop : feedLoop host s b = ((feedLoop host t (b.drop n)).1,
            n + (feedLoop host t (b.drop n)).2.1, (feedLoop host t (b.drop n)).2.2) := by
          rw [feedLoop_pass hne, hp]
        obtain ⟨hle, hcases⟩ := pass_append hne hp
        rcases hcases with hall | ⟨rfl, hpos, hall⟩
        · -- the pass does not look past the bytes it has
          have hrest := ih (measure t (b.drop n)) (hm ▸ pass_progress hne hp) t (b.drop n) rfl
          have hlonger : feedLoop host s (b ++ c) = ((feedLoop host t (b.drop n ++ c)).1,
              n + (feedLoop host t (b.drop n ++ c)).2.1,
              (feedLoop host t (b.drop n ++ c)).2.2) := by
            rw [feedLoop_pass hcne, hall]
            dsimp only
            rw [List.drop_append_of_le_length hle]
          rw [hlonger, hloop]
          refine ⟨fun hok hin => ?_, fun hfail => ?_⟩
          · dsimp only at hok hin ⊢
            rw [← List.drop_drop] at hin ⊢
            rw [hrest.1 hok hin, Nat.add_assoc]
          · dsimp only at hfail ⊢
            rw [hrest.2 hfail]
        · -- the bytes end inside a payload
          have hend : feedLoop host s b = (t, b.length, .ok) := by
            rw [hloop, List.drop_length, feedLoop_nil]
            rfl
          rw [hend]
          refine ⟨fun _ _ => ?_, fun h => absurd rfl h⟩
          dsimp only
          rw [List.drop_length, List.nil_append]
          by_cases hc : c = []
          · subst hc
            rw [List.append_nil, hend, feedLoop_nil]
            rfl
          · rw [feedLoop_pass hcne, hall, feedLoop_pass (s := t) hc]
            have hnext : ∀ u, loopStep host t c ≠ .stop u := by
              intro u hu
              unfold loopStep at hu
              rw [if_pos hpos] at hu
              cases hcs : t.reader.chunks t.reader.pendingCsid with
              | none =>
                rw [hcs] at hu
                cases hu
              | some cs =>
                rw [hcs] at hu
                exact absurd hu (payloadStep_not_stop _ _ _ _ _ _)
            rcases hpc : loopStep host t c with u | ⟨u, m⟩ | ⟨u, m⟩
            · exact absurd hpc (hnext u)
            · rfl
            · dsimp only [Step.after]
              have hdrop : (b ++ c).drop (b.length + m) = c.drop m := by
                rw [List.drop_append]
                simp
              rw [hdrop, Nat.add_assoc]

/-- A connection between two calls: the bytes it holds back and whether it failed. -/
structure Held where
  connection : Connection
  left : List UInt8
  rc : Rc

def call (host : Host) (x : Held) (piece : List UInt8) : Held :=
  if x.rc = .ok then
    let result := feed host x.connection (x.left ++ piece)
    ⟨result.1, (x.left ++ piece).drop result.2.1, result.2.2⟩
  else x

def calls (host : Host) (c : Connection) (pieces : List (List UInt8)) : Held :=
  pieces.foldl (call host) ⟨c, [], .ok⟩

/-- The call is not handed the unfinished header of the one form. -/
def Clean (x : Held) (_ : List UInt8) : Prop := x.rc = .ok → ¬ Inside x.connection.state.reader x.left

/-- The messages delivered, the state of every chunk stream, the error, if there is one, and
otherwise the bytes held back. -/
def outcome (x : Held) : State × Rc × List UInt8 :=
  (x.connection.state, x.rc, if x.rc = .ok then x.left else [])

theorem call_failed {x : Held} (h : x.rc ≠ .ok) (pieces : List (List UInt8)) :
    pieces.foldl (call host) x = x := by
  induction pieces with
  | nil => rfl
  | cons piece rest ih =>
    rw [List.foldl_cons, call, if_neg h]
    exact ih

theorem call_ok {x : Held} (h : x.rc = .ok) (piece : List UInt8) :
    outcome (call host x piece) =
      ((feedLoop host x.connection.state (x.left ++ piece)).1,
        (feedLoop host x.connection.state (x.left ++ piece)).2.2,
        if (feedLoop host x.connection.state (x.left ++ piece)).2.2 = .ok then
          (x.left ++ piece).drop (feedLoop host x.connection.state (x.left ++ piece)).2.1
        else []) := by
  rw [call, if_pos h]
  rfl

theorem feedLoop_consumed_le (host : Host) (s : State) (b : List UInt8)
    (hok : (feedLoop host s b).2.2 = .ok) : (feedLoop host s b).2.1 ≤ b.length := by
  induction hm : measure s b using Nat.strongRecOn generalizing s b with
  | ind k ih =>
    by_cases hne : b = []
    · rw [hne, feedLoop_nil]
      exact Nat.zero_le _
    · rw [feedLoop_pass hne] at hok ⊢
      rcases hp : loopStep host s b with t | ⟨t, n⟩ | ⟨t, n⟩
      · exact Nat.zero_le _
      · rw [hp] at hok
        cases hok
      · rw [hp] at hok
        dsimp only at hok ⊢
        have hrest := ih _ (hm ▸ pass_progress hne hp) t (b.drop n) hok rfl
        have hle := (pass_append hne hp).1
        rw [List.length_drop] at hrest
        omega

theorem outcome_calls {x : Held} (h : x.rc = .ok) {pieces : List (List UInt8)} (hne : pieces ≠ [])
    (hclean : StepRun.Meets (call host) Clean x pieces) :
    outcome (pieces.foldl (call host) x) = outcome (call host x pieces.flatten) := by
  induction pieces generalizing x with
  | nil => exact absurd rfl hne
  | cons piece rest ih =>
    rw [List.foldl_cons, List.flatten_cons]
    by_cases hrest : rest = []
    · subst hrest
      simp
    · have happ := feedLoop_append host x.connection.state (x.left ++ piece) rest.flatten
      by_cases hok : (call host x piece).rc = .ok
      · have hcall : call host x piece = _ := if_pos h
        have hclean' := hclean.2
        have hfirst : ¬ Inside (call host x piece).connection.state.reader
            (call host x piece).left := by
          cases rest with
          | nil => exact absurd rfl hrest
          | cons piece' rest' => exact hclean'.1 hok
        rw [ih hok hrest hclean', call_ok hok, call_ok h, ← List.append_assoc]
        rw [hcall] at hok hfirst ⊢
        have hle := feedLoop_consumed_le host x.connection.state (x.left ++ piece) hok
        rw [happ.1 hok hfirst, ← List.drop_drop, List.drop_append_of_le_length hle]
        rfl
      · rw [call_failed hok, call_ok h, call_ok h, ← List.append_assoc]
        have hfail : ¬ (feedLoop host x.connection.state (x.left ++ piece)).2.2 = .ok := by
          rw [call, if_pos h] at hok
          exact hok
        rw [happ.2 hfail, if_neg hfail, if_neg hfail]

theorem basicHeader_nil : basicHeader [] = none := rfl

/-- Handed the unfinished header once more, without a new byte, the reader moves the time of
the chunk stream once more. -/
theorem inside_moves {left : List UInt8} (hin : Inside s.reader left) :
    (feedLoop host s left).1 ≠ s := by
  obtain ⟨hpend, csid, h, cs, hb, hcs, hshort, hext, hidle, hdelta⟩ := hin
  have hne : left ≠ [] := by
    intro hnil
    rw [hnil, basicHeader_nil] at hb
    cases hb
  have hheader : chunkHeader s.reader.buffered cs 3 h left =
      (s.reader.buffered, repeatHeader cs, none) := by
    have hstill : (repeatHeader cs).extended = true := by
      rw [repeatHeader, if_pos hidle]
      exact hext
    simp only [chunkHeader, if_true, continuation, if_pos hstill, if_pos hshort]
  have hmore : parseHeader host s.reader left =
      .more (setCs { s.reader with buffered := s.reader.buffered } csid (repeatHeader cs)) := by
    simp only [parseHeader, hb, csGet, hcs, hheader]
  have hpass : loopStep host s left = .stop ⟨setCs s.reader csid (repeatHeader cs), s.delivered⟩ := by
    rw [loopStep, if_neg (by omega), hmore]
  rw [feedLoop_pass hne, hpass]
  intro heq
  have hchunk := congrFun (congrArg (fun s : State => s.reader.chunks) heq) csid
  rw [hcs] at hchunk
  have hsame : repeatHeader cs = cs := by simpa [setCs] using hchunk
  rw [repeatHeader, if_pos hidle] at hsame
  have htime : cs.timestamp + cs.delta = cs.timestamp := congrArg ChunkStream.timestamp hsame
  exact hdelta (by simpa using htime)

theorem meets_of_single {c : Connection} {b : List UInt8}
    (hsingle : ∀ a, a <+: b → Clean (calls host c [a]) []) {pieces : List (List UInt8)}
    (hpre : pieces.flatten <+: b) : StepRun.Meets (call host) Clean ⟨c, [], .ok⟩ pieces := by
  induction pieces using List.reverseRecOn with
  | nil => trivial
  | append_singleton before piece ih =>
    rw [List.flatten_append] at hpre
    have hbefore := (List.prefix_append _ _).trans hpre
    refine StepRun.meets_concat.mpr ⟨ih hbefore, ?_⟩
    by_cases hnil : before = []
    · subst hnil
      intro _ hin
      obtain ⟨_, csid, h, cs, hb, _⟩ := hin
      rw [List.foldl_nil, basicHeader_nil] at hb
      cases hb
    · have hout := outcome_calls rfl hnil (ih hbefore)
      intro hok hin
      refine hsingle before.flatten hbefore ?_ ?_
      · have := congrArg (fun x => x.2.1) hout
        exact this.symm.trans hok
      · have hstate := congrArg Prod.fst hout
        have hrc := congrArg (fun x => x.2.1) hout
        have hleft := congrArg (fun x => x.2.2) hout
        dsimp only [outcome] at hstate hrc hleft
        rw [if_pos hok, if_pos (hrc ▸ hok)] at hleft
        rw [hstate, hleft] at hin
        exact hin

/-- However a stream is cut into calls, the messages, the chunk streams and the first error are
those of a single call, provided no call is handed the unfinished header of a format 3 chunk that
starts a message with an extended timestamp and a delta. -/
theorem split_invariance (host : Host) (c : Connection) :
    (∀ pieces, pieces ≠ [] → StepRun.Meets (call host) Clean ⟨c, [], .ok⟩ pieces →
      outcome (calls host c pieces) = outcome (calls host c [pieces.flatten])) ∧
    ∀ b, (∀ pieces, pieces ≠ [] → pieces.flatten <+: b →
        outcome (calls host c pieces) = outcome (calls host c [pieces.flatten])) ↔
      ∀ a, a <+: b → Clean (calls host c [a]) [] := by
  have hrun : ∀ pieces, pieces ≠ [] → StepRun.Meets (call host) Clean ⟨c, [], .ok⟩ pieces →
      outcome (calls host c pieces) = outcome (calls host c [pieces.flatten]) :=
    fun pieces hne hmeets => outcome_calls rfl hne hmeets
  refine ⟨hrun, fun b => ⟨?_, ?_⟩⟩
  · intro hall a ha hok hin
    have htwice := hall [a, []] (by simp) (by simpa using ha)
    have hmoved := @inside_moves host _ _ hin
    have hstate := congrArg Prod.fst htwice
    have hcall := congrArg Prod.fst (@call_ok host _ hok [])
    rw [List.append_nil] at hcall
    have hflat : [a, []].flatten = a := by simp
    rw [hflat] at hstate
    exact hmoved (hcall.symm.trans hstate)
  · intro hsingle pieces hne hpre
    exact hrun pieces hne (meets_of_single hsingle hpre)

/-- A host with memory for every payload and a callback that takes every message. -/
def willing : Host := ⟨fun _ => true, fun _ _ => true⟩

/-- Two one-byte messages on chunk stream 3 at the times 0x1000000 and 0x2000000: a format 0
chunk, and a format 3 chunk that repeats its header. -/
def repeatedHeader : List UInt8 :=
  [0x03, 0xFF, 0xFF, 0xFF, 0, 0, 1, 9, 0, 0, 0, 1, 1, 0, 0, 0, 42, 0xC3, 1, 0, 0, 0, 43]

theorem split_invariance_between_chunks :
    outcome (calls willing ⟨⟨Reader.init, []⟩, 0⟩
      [repeatedHeader.take 17, repeatedHeader.drop 17]) =
    outcome (calls willing ⟨⟨Reader.init, []⟩, 0⟩ [repeatedHeader]) := by
  refine (split_invariance willing ⟨⟨Reader.init, []⟩, 0⟩).1
    [repeatedHeader.take 17, repeatedHeader.drop 17] (by simp) ?_
  refine ⟨?_, ?_, trivial⟩
  · intro _ hin
    obtain ⟨_, csid, h, cs, hb, _⟩ := hin
    rw [basicHeader_nil] at hb
    cases hb
  · intro _ hin
    obtain ⟨_, csid, h, cs, hb, _⟩ := hin
    have hleft : (call willing ⟨⟨⟨Reader.init, []⟩, 0⟩, [], .ok⟩ (repeatedHeader.take 17)).left =
        [] := by decide +kernel
    rw [hleft, basicHeader_nil] at hb
    cases hb

/-- Cut behind the second basic header, the second message is delivered a delta late. -/
theorem split_moves_timestamp :
    (calls willing ⟨⟨Reader.init, []⟩, 0⟩ [repeatedHeader]).connection.state.delivered =
        [⟨9, 1, 0x1000000, [42]⟩, ⟨9, 1, 0x2000000, [43]⟩] ∧
      (calls willing ⟨⟨Reader.init, []⟩, 0⟩
        [repeatedHeader.take 18, repeatedHeader.drop 18]).connection.state.delivered =
        [⟨9, 1, 0x1000000, [42]⟩, ⟨9, 1, 0x3000000, [43]⟩] := by
  decide +kernel

end RtmpSplit
