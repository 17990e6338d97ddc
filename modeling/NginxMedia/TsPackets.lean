import NginxMedia.TsUnits

/-! What the demultiplexer finds in the muxer's packets: the header and the payload of one
packet, and the program tables. -/
namespace TsPackets

open MediaTypes ByteString TsMux TsDemux TsUnits

variable {payload : List UInt8} {withPcr : Bool}

theorem byteAt_packet (pid cc : ℕ) (pusi : Bool) (payload : List UInt8) (withPcr : Bool)
    (pcrBase : ℤ) :
    byteAt (packet pid cc pusi payload withPcr pcrBase) 1 =
        (if pusi then 64 else 0) + pid / 256 % 32 ∧
      byteAt (packet pid cc pusi payload withPcr pcrBase) 2 = pid % 256 ∧
      byteAt (packet pid cc pusi payload withPcr pcrBase) 3 =
        (if afSize payload.length withPcr > 0 then 3 else 1) * 16 + cc % 16 := by
  simp only [packet, List.cons_append, byteAt_succ, byteAt_zero, low_toNat]
  refine ⟨?_, trivial, ?_⟩
  · cases pusi <;> simp only [if_true, Bool.false_eq_true, if_false] <;> omega
  · split_ifs <;> omega

theorem byteAt_adaptation {n : ℕ} (pcrBase : ℤ) (rest : List UInt8) (hn : 0 < n)
    (h256 : n ≤ 256) :
    byteAt (adaptation n withPcr pcrBase ++ rest) 0 = n - 1 ∧
      (1 < n → byteAt (adaptation n withPcr pcrBase ++ rest) 1 = if withPcr then 16 else 0) := by
  unfold adaptation
  rw [if_neg (by omega)]
  constructor
  · rw [List.cons_append, byteAt_zero, low_toNat]
    omega
  · intro h1
    rw [if_pos h1, List.cons_append, byteAt_succ]
    cases withPcr <;> simp

theorem packetHeader_packet (pid cc : ℕ) (pusi : Bool) (pcrBase : ℤ) (hpid : pid < 8192)
    (h : Loads payload withPcr) :
    ∃ pcr, packetHeader (packet pid cc pusi payload withPcr pcrBase) =
      some ⟨pid, pusi, cc % 16, some payload, false, pcr⟩ := by
  obtain ⟨hsize, hpcr⟩ := afSize_add h
  obtain ⟨h1, h2, h3⟩ := byteAt_packet pid cc pusi payload withPcr pcrBase
  have haf : afSize payload.length withPcr ≤ payloadBytes := by omega
  have htail : ∀ i, byteAt (packet pid cc pusi payload withPcr pcrBase) (4 + i) =
      byteAt (adaptation (afSize payload.length withPcr) withPcr pcrBase ++ payload) i := by
    intro i
    rw [packet, List.append_assoc]
    exact byteAt_add rfl _ i
  have hdrop : (packet pid cc pusi payload withPcr pcrBase).drop
      (4 + afSize payload.length withPcr) = payload := by
    rw [packet]
    apply List.drop_left'
    rw [List.length_append, adaptation_length pcrBase hpcr]
    rfl
  have hpidEq : ((if pusi then 64 else 0) + pid / 256 % 32) % 32 * 256 + pid % 256 = pid := by
    cases pusi <;> simp only [if_true, Bool.false_eq_true, if_false] <;> omega
  have hpusi : decide (((if pusi then 64 else 0) + pid / 256 % 32) / 64 % 2 = 1) = pusi := by
    cases pusi with
    | false =>
      simp only [Bool.false_eq_true, if_false, decide_eq_false_iff_not]
      omega
    | true =>
      simp only [if_true, decide_eq_true_eq]
      omega
  have hscr : byteAt (packet pid cc pusi payload withPcr pcrBase) 3 / 64 = 0 := by
    rw [h3]
    split_ifs <;> omega
  have hcc : byteAt (packet pid cc pusi payload withPcr pcrBase) 3 % 16 = cc % 16 := by
    rw [h3]
    split_ifs <;> omega
  unfold packetHeader
  dsimp only
  rw [h1, h2, hcc, hpidEq, hpusi, if_neg (by rw [hscr]; simp)]
  by_cases h0 : afSize payload.length withPcr = 0
  · -- no adaptation field
    have hafc : byteAt (packet pid cc pusi payload withPcr pcrBase) 3 / 16 % 4 = 1 := by
      rw [h3, h0, if_neg (by omega)]
      omega
    rw [h0] at hdrop
    rw [hafc, if_neg (by decide), if_neg (by simp)]
    refine ⟨none, ?_⟩
    simp [hdrop]
  · obtain ⟨hlen, hflags⟩ := @byteAt_adaptation withPcr _ pcrBase payload
      (Nat.pos_of_ne_zero h0) (by unfold payloadBytes at haf; omega)
    have hafc : byteAt (packet pid cc pusi payload withPcr pcrBase) 3 / 16 % 4 = 3 := by
      rw [h3, if_pos (Nat.pos_of_ne_zero h0)]
      omega
    have hlen4 : byteAt (packet pid cc pusi payload withPcr pcrBase) 4 =
        afSize payload.length withPcr - 1 := (htail 0).trans hlen
    have hoff : 5 + (afSize payload.length withPcr - 1) = 4 + afSize payload.length withPcr := by
      omega
    have hmax : ¬ (3 / 2 = 1 ∧ afSize payload.length withPcr - 1 > 183) := by
      unfold payloadBytes at haf
      omega
    have hdisc : ¬ (3 / 2 = 1 ∧ afSize payload.length withPcr - 1 > 0 ∧
        byteAt (packet pid cc pusi payload withPcr pcrBase) 5 / 128 = 1) := by
      rintro ⟨-, hgt, hbit⟩
      have hbyte : byteAt (packet pid cc pusi payload withPcr pcrBase) 5 =
          if withPcr then 16 else 0 := (htail 1).trans (hflags (by omega))
      rw [hbyte] at hbit
      split_ifs at hbit
    rw [hafc, hlen4, if_neg (by decide), if_neg hmax, if_pos (by decide), if_pos (by decide), hoff,
      hdrop, decide_eq_false hdisc]
    exact ⟨_, rfl⟩

def seen (c : Core) (pcr : Option ℕ) : Core :=
  let c := { c with stats := { c.stats with packets := c.stats.packets + 1 } }
  match pcr with
  | some base => { c with stats := { c.stats with lastPcr := base, hasPcr := true } }
  | none => c

theorem seen_emits (c : Core) (pcr : Option ℕ) : Emits [] c (seen c pcr) := by
  cases pcr <;> exact ⟨rfl, rfl, rfl, rfl, rfl, rfl, rfl, rfl, (List.append_nil _).symm⟩

variable {mem : Memory} {c c' : Core} {t : EsTrack} {pid cc : ℕ}

theorem processPacket_packet (mem : Memory) (c : Core) (cc : ℕ) (pusi : Bool) (pcrBase : ℤ)
    (hpid : pid < pidNull) (h : Loads payload withPcr) :
    ∃ pcr, processPacket mem c (packet pid cc pusi payload withPcr pcrBase) =
      if pid = TsDemux.pidPat then
        tablePacket mem (seen c pcr) .pat ⟨pid, pusi, cc % 16, some payload, false, pcr⟩
      else if c.patValid = true ∧ pid = c.pmtPid then
        tablePacket mem (seen c pcr) .pmt ⟨pid, pusi, cc % 16, some payload, false, pcr⟩
      else
        match trackByPid c pid with
        | none => seen c pcr
        | some t =>
          (trackPacket mem (seen c pcr) t ⟨pid, pusi, cc % 16, some payload, false, pcr⟩).1.putTrack
            (trackPacket mem (seen c pcr) t ⟨pid, pusi, cc % 16, some payload, false, pcr⟩).2 := by
  have hnull : pid < 8192 := Nat.lt_trans hpid (by decide)
  obtain ⟨pcr, hheader⟩ := packetHeader_packet pid cc pusi pcrBase hnull h
  obtain ⟨h1, h2, -⟩ := byteAt_packet pid cc pusi payload withPcr pcrBase
  refine ⟨pcr, ?_⟩
  have hok : ¬ byteAt (packet pid cc pusi payload withPcr pcrBase) 1 / 128 = 1 := by
    rw [h1]
    cases pusi <;> simp only [if_true, Bool.false_eq_true, if_false] <;> omega
  have hother : ¬ byteAt (packet pid cc pusi payload withPcr pcrBase) 1 % 32 * 256 +
      byteAt (packet pid cc pusi payload withPcr pcrBase) 2 = pidNull := by
    have hval : byteAt (packet pid cc pusi payload withPcr pcrBase) 1 % 32 * 256 +
        byteAt (packet pid cc pusi payload withPcr pcrBase) 2 = pid := by
      rw [h1, h2]
      cases pusi <;> simp only [if_true, Bool.false_eq_true, if_false] <;> omega
    omega
  unfold processPacket
  dsimp only
  rw [if_neg hok, if_neg hother, hheader]
  cases pcr <;> rfl

def Expects (held : Option ℕ) (cc : ℕ) : Prop := ∀ old, held = some old → cc % 16 = (old + 1) % 16

theorem Expects.check {held : Option ℕ} (h : Expects held cc) :
    ccCheck held (cc % 16) true = (some (cc % 16), true) := by
  cases held with
  | none => rfl
  | some old =>
    have := h old rfl
    simp [ccCheck, this]

theorem expects_next (cc : ℕ) : Expects (some (cc % 16)) (cc + 1) := by
  intro old hold
  obtain rfl := Option.some.inj hold
  omega

theorem Expects.of_mod {held : Option ℕ} {cc' : ℕ} (h : Expects held cc)
    (hmod : cc' % 16 = cc % 16) : Expects held cc' := by
  intro old hold
  rw [hmod]
  exact h old hold

variable {r : ℕ × ℕ} {index maxAu : ℕ} {f : Frame} {data rest piece : List UInt8}
  {fs : List Frame} {pend : Option Frame}

def Rests (maxAu : ℕ) (r : ℕ × ℕ) (index : ℕ) (pend : Option Frame) (t : EsTrack) : Prop :=
  match pend with
  | none => Idle r index t
  | some f => ∃ data, Elementary maxAu r.2 f data ∧ Gathers r index f data [] t

theorem Rests.plays (h : Rests maxAu r index pend t) : Plays r index t := by
  cases pend with
  | none => exact Idle.plays h
  | some f =>
    obtain ⟨data, -, hg⟩ := h
    exact hg.plays

theorem auFlush_rests (hm : Plenty mem) (h : Rests c.maxAuBytes r index pend t) :
    Emits (pend.toList.map (received r.2 index)) c (auFlush mem c t).1 ∧
      Idle r index (auFlush mem c t).2 ∧ (auFlush mem c t).2.cc = t.cc := by
  cases pend with
  | none => exact auFlush_idle h
  | some f =>
    obtain ⟨data, he, hg⟩ := h
    exact auFlush_unit hm he hg

theorem plays_cc (h : Plays r index t) (held : Option ℕ) : Plays r index { t with cc := held } :=
  ⟨h.pid, h.streamType, h.codec, h.trackIndex, h.mediaType⟩

theorem rests_cc (h : Rests maxAu r index pend t) (held : Option ℕ) :
    Rests maxAu r index pend { t with cc := held } := by
  cases pend with
  | none =>
    have hi : Idle r index t := h
    exact ⟨plays_cc hi.plays held, hi.au, hi.whole, hi.remaining⟩
  | some f =>
    obtain ⟨data, he, hg⟩ := h
    exact ⟨data, he, plays_cc hg.plays held, hg.au, hg.begun, hg.whole, hg.remaining, hg.hasPts,
      hg.pts, hg.dts⟩

theorem trackPacket_start (hm : Plenty mem) (he : Elementary c.maxAuBytes r.2 f data)
    (hdata : piece ++ rest = data) (hne : piece ≠ []) (hr : Rests c.maxAuBytes r index pend t)
    (hcc : Expects t.cc cc) (pcr : Option ℕ) :
    ∃ fs, Emits (pend.toList.map (received r.2 index) ++ fs) c (trackPacket mem c t
        ⟨pid, true, cc % 16, some (pesHeader f data.length ++ piece), false, pcr⟩).1 ∧
      After r index f data rest fs (trackPacket mem c t
        ⟨pid, true, cc % 16, some (pesHeader f data.length ++ piece), false, pcr⟩).2 ∧
      (trackPacket mem c t
        ⟨pid, true, cc % 16, some (pesHeader f data.length ++ piece), false, pcr⟩).2.cc =
        some (cc % 16) := by
  obtain ⟨hflush, hidle, hkeep⟩ := auFlush_rests hm (rests_cc hr (some (cc % 16)))
  obtain ⟨fs, hemit, hafter, hcc'⟩ := @pesStart_unit mem
    (auFlush mem c { t with cc := some (cc % 16) }).1
    (auFlush mem c { t with cc := some (cc % 16) }).2 r index f data rest piece hm
    (by rw [hflush.maxAuBytes]; exact he) hdata hne hidle
  unfold trackPacket
  simp only [Option.isSome_some, hcc.check, true_or, if_true]
  exact ⟨fs, hflush.trans hemit, hafter, hcc'.trans hkeep⟩

theorem trackPacket_continue (hm : Plenty mem) (he : Elementary c.maxAuBytes r.2 f data)
    (hne : piece ≠ []) (hg : Gathers r index f data (piece ++ rest) t) (hcc : Expects t.cc cc)
    (pcr : Option ℕ) :
    ∃ fs, Emits fs c (trackPacket mem c t ⟨pid, false, cc % 16, some piece, false, pcr⟩).1 ∧
      After r index f data rest fs
        (trackPacket mem c t ⟨pid, false, cc % 16, some piece, false, pcr⟩).2 ∧
      (trackPacket mem c t ⟨pid, false, cc % 16, some piece, false, pcr⟩).2.cc =
        some (cc % 16) := by
  have hg' : Gathers r index f data (piece ++ rest) { t with cc := some (cc % 16) } :=
    ⟨plays_cc hg.plays _, hg.au, hg.begun, hg.whole, hg.remaining, hg.hasPts, hg.pts, hg.dts⟩
  obtain ⟨fs, hemit, hafter, hcc'⟩ := pesContinue_unit hm he hne hg'
  unfold trackPacket
  simp only [Option.isSome_some, hcc.check, true_or, if_true, Bool.false_eq_true, if_false]
  exact ⟨fs, hemit, hafter, hcc'⟩

structure Routed (c : Core) (pid index : ℕ) : Prop where
  pos : pid ≠ TsDemux.pidPat
  lt : pid < pidNull
  notPmt : pid ≠ c.pmtPid
  alone : ∀ j t, c.tracks[j]? = some t → t.pid = pid → j = index

theorem Routed.trackByPid (h : Routed c pid index) (ht : c.tracks[index]? = some t)
    (hpid : t.pid = pid) : trackByPid c pid = some t := by
  obtain ⟨hi, hget⟩ := List.getElem?_eq_some_iff.mp ht
  refine List.find?_eq_some_iff_getElem.mpr ⟨by simpa using hpid, index, hi, hget, ?_⟩
  intro j hj
  have hjlt : j < c.tracks.length := by omega
  simp only [Bool.not_eq_true', decide_eq_false_iff_not]
  intro he
  have := h.alone j c.tracks[j] (List.getElem?_eq_getElem hjlt) he
  omega

theorem processPacket_track (mem : Memory) (h : Routed c pid index)
    (ht : c.tracks[index]? = some t) (hpid : t.pid = pid) (cc : ℕ) (pusi : Bool) (pcrBase : ℤ)
    (hload : Loads payload withPcr) :
    ∃ pcr, processPacket mem c (packet pid cc pusi payload withPcr pcrBase) =
      (trackPacket mem (seen c pcr) t ⟨pid, pusi, cc % 16, some payload, false, pcr⟩).1.putTrack
        (trackPacket mem (seen c pcr) t ⟨pid, pusi, cc % 16, some payload, false, pcr⟩).2 := by
  obtain ⟨pcr, hp⟩ := processPacket_packet mem c cc pusi pcrBase h.lt hload
  refine ⟨pcr, ?_⟩
  rw [hp, if_neg h.pos, if_neg (fun hn => h.notPmt hn.2), h.trackByPid ht hpid]

theorem Routed.put (h : Routed c pid index) (hindex : t.trackIndex = index)
    (he : Emits fs (c.putTrack t) c') : Routed c' pid index := by
  refine ⟨h.pos, h.lt, ?_, ?_⟩
  · rw [he.pmtPid]
    exact h.notPmt
  · intro j u hj hu
    rw [he.tracks, Core.putTrack, hindex] at hj
    by_cases hji : j = index
    · exact hji
    · dsimp only at hj
      rw [List.getElem?_set_ne (fun e => hji e.symm)] at hj
      exact h.alone j u hj hu

theorem cell_put (ht : c.tracks[index]? = some t) {u : EsTrack} (hindex : u.trackIndex = index)
    (he : Emits fs (c.putTrack u) c') : c'.tracks[index]? = some u := by
  obtain ⟨hi, -⟩ := List.getElem?_eq_some_iff.mp ht
  rw [he.tracks, Core.putTrack, hindex]
  exact List.getElem?_set_self hi

theorem take_ne_nil (hne : rest ≠ []) (withPcr : Bool) :
    rest.take (payloadCapacity rest.length withPcr) ≠ [] := by
  have hpos := List.length_pos_iff.mpr hne
  have hcap := payloadCapacity_pos withPcr hpos
  intro he
  have := congrArg List.length he
  rw [List.length_take, List.length_nil] at this
  omega

theorem unit_rest (hm : Plenty mem) (dts : ℤ) (pcr : Bool) (n : ℕ) {rest : List UInt8}
    (hn : rest.length ≤ n) {fs : List Frame} (he : Elementary c.maxAuBytes r.2 f data)
    (hroute : Routed c r.1 index) (ht : c.tracks[index]? = some t)
    (hafter : After r index f data rest fs t) (hcc : Expects t.cc cc) :
    ∃ fs' u, Emits fs' (c.putTrack u)
        ((pesPackets r.1 dts cc false pcr rest).foldl (processPacket mem) c) ∧
      After r index f data [] (fs ++ fs') u ∧
      Expects u.cc (cc + (pesPackets r.1 dts cc false pcr rest).length) := by
  have hplays := hafter.plays
  induction n generalizing c t cc rest fs with
  | zero =>
    obtain rfl : rest = [] := List.length_eq_zero_iff.mp (by omega)
    rw [pesPackets_nil, List.foldl_nil]
    refine ⟨[], t, ?_, ?_, hcc⟩
    · rw [putTrack_same ht hplays.trackIndex]
      exact Emits.refl c
    · rw [List.append_nil]
      exact hafter
  | succ n ih =>
    by_cases hne : rest = []
    · exact ih (by rw [hne]; simp) he hroute ht hafter hcc hplays
    · rw [pesPackets_cons _ _ _ _ _ hne, List.foldl_cons, List.length_cons]
      unfold After at hafter
      rw [if_neg (fun h => hne h.1)] at hafter
      obtain ⟨hg, rfl⟩ := hafter
      have hsplit : rest.take (payloadCapacity rest.length (false && pcr)) ++
          rest.drop (payloadCapacity rest.length (false && pcr)) = rest := List.take_append_drop _ _
      obtain ⟨base, hp⟩ := processPacket_track mem hroute ht hplays.pid cc false dts
        (take_loads rest (false && pcr))
      have hseen := seen_emits c base
      obtain ⟨fs₁, hemit, hafter₁, hcc₁⟩ := @trackPacket_continue mem (seen c base) t r.1 cc r
        index f data (rest.drop (payloadCapacity rest.length (false && pcr)))
        (rest.take (payloadCapacity rest.length (false && pcr))) hm
        (by rw [hseen.maxAuBytes]; exact he) (take_ne_nil hne _) (by rw [hsplit]; exact hg) hcc
        base
      have hindex := hafter₁.plays.trackIndex
      have hput := (hseen.trans hemit).putTrack (trackPacket mem (seen c base) t ⟨r.1, false,
        cc % 16, some (rest.take (payloadCapacity rest.length (false && pcr))), false, base⟩).2
      rw [← hp] at hput
      have hlen := drop_payload_lt (false && pcr) hne
      obtain ⟨fs₂, u, hemit₂, hafter₂, hcc₂⟩ := ih (by omega)
        (by rw [hput.maxAuBytes]; exact he) (hroute.put hindex hput) (cell_put ht hindex hput)
        hafter₁ (by rw [hcc₁]; exact (expects_next cc).of_mod (Nat.mod_mod _ _)) hafter₁.plays
      refine ⟨fs₁ ++ fs₂, u, ?_, hafter₂, ?_⟩
      · exact hput.then_put hemit₂ (hindex.trans hafter₂.plays.trackIndex.symm)
      · exact hcc₂.of_mod (by omega)

theorem first_packet (f : Frame) (hne : data ≠ []) (pcr : Bool) :
    ∃ piece rest, piece ++ rest = data ∧ piece ≠ [] ∧
      (pesHeader f data.length ++ data).take
        (payloadCapacity (pesHeader f data.length ++ data).length pcr) =
          pesHeader f data.length ++ piece ∧
      (pesHeader f data.length ++ data).drop
        (payloadCapacity (pesHeader f data.length ++ data).length pcr) = rest := by
  have hpos := List.length_pos_iff.mpr hne
  have hhead : (pesHeader f data.length).length ≤ 19 := by
    rw [pesHeader_length]
    split_ifs <;> omega
  have hcap : (pesHeader f data.length).length <
      payloadCapacity (pesHeader f data.length ++ data).length pcr := by
    rw [List.length_append]
    unfold payloadCapacity payloadBytes
    cases pcr <;> simp only [if_true, Bool.false_eq_true, if_false] <;> split_ifs <;> omega
  refine ⟨data.take (payloadCapacity (pesHeader f data.length ++ data).length pcr -
    (pesHeader f data.length).length), _, List.take_append_drop _ _, ?_, ?_, ?_⟩
  · intro he
    have := congrArg List.length he
    rw [List.length_take, List.length_nil] at this
    omega
  · rw [List.take_append, List.take_of_length_le (by omega)]
  · rw [List.drop_append, List.drop_of_length_le (by omega), List.nil_append]

theorem unit_packets (hm : Plenty mem) (dts : ℤ) (pcr : Bool)
    (he : Elementary c.maxAuBytes r.2 f data) (hroute : Routed c r.1 index)
    (ht : c.tracks[index]? = some t) (hr : Rests c.maxAuBytes r index pend t)
    (hcc : Expects t.cc cc) :
    ∃ fs u, Emits (pend.toList.map (received r.2 index) ++ fs) (c.putTrack u)
        ((pesPackets r.1 dts cc true pcr (pesHeader f data.length ++ data)).foldl
          (processPacket mem) c) ∧
      After r index f data [] fs u ∧
      Expects u.cc (cc + (pesPackets r.1 dts cc true pcr
        (pesHeader f data.length ++ data)).length) := by
  obtain ⟨piece, rest, hdata, hpiece, htake, hdrop⟩ := first_packet f he.nonempty pcr
  have hne : pesHeader f data.length ++ data ≠ [] := by
    intro hnil
    exact he.nonempty (List.append_eq_nil_iff.mp hnil).2
  have hload := take_loads (pesHeader f data.length ++ data) pcr
  rw [pesPackets_cons _ _ _ _ _ hne, Bool.true_and, List.foldl_cons, List.length_cons, hdrop,
    htake]
  rw [htake] at hload
  obtain ⟨base, hp⟩ := processPacket_track mem hroute ht hr.plays.pid cc true dts hload
  have hseen := seen_emits c base
  obtain ⟨fs₁, hemit, hafter₁, hcc₁⟩ := @trackPacket_start mem (seen c base) t r.1 cc r index f
    data rest piece pend hm (by rw [hseen.maxAuBytes]; exact he) hdata hpiece
    (by rw [hseen.maxAuBytes]; exact hr) hcc base
  have hindex := hafter₁.plays.trackIndex
  have hput := (hseen.trans hemit).putTrack (trackPacket mem (seen c base) t ⟨r.1, true, cc % 16,
    some (pesHeader f data.length ++ piece), false, base⟩).2
  rw [← hp, List.nil_append] at hput
  obtain ⟨fs₂, u, hemit₂, hafter₂, hcc₂⟩ := unit_rest hm dts pcr rest.length (Nat.le_refl _)
    (by rw [hput.maxAuBytes]; exact he) (hroute.put hindex hput) (cell_put ht hindex hput)
    hafter₁ (by rw [hcc₁]; exact (expects_next cc).of_mod (Nat.mod_mod _ _))
  refine ⟨fs₁ ++ fs₂, u, ?_, hafter₂, ?_⟩
  · rw [← List.append_assoc]
    exact hput.then_put hemit₂ (hindex.trans hafter₂.plays.trackIndex.symm)
  · exact hcc₂.of_mod (by omega)

end TsPackets
