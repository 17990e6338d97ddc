import NginxMedia.MediaCodec

/-! Annex B streams: the NAL units that a stream is cut into are whole, and a stream that is put
together from whole units is cut into them again. -/
namespace AnnexB

open MediaCodec

structure Whole (nal : List UInt8) : Prop where
  uncoded : startCode nal = none
  ended : ∃ init last, nal = init ++ [last] ∧ last ≠ 0

theorem Whole.ne_nil {nal : List UInt8} (h : Whole nal) : nal ≠ [] := by
  obtain ⟨init, last, hnal, -⟩ := h.ended
  rw [hnal]
  exact List.append_ne_nil_of_right_ne_nil _ (List.cons_ne_nil _ _)

/-- Each unit behind a start code of four bytes. -/
def annexB (units : List (List UInt8)) : List UInt8 := units.flatMap fun nal => [0, 0, 0, 1] ++ nal

@[simp] theorem annexB_nil : annexB [] = [] := rfl

@[simp] theorem annexB_cons (nal : List UInt8) (rest : List (List UInt8)) :
    annexB (nal :: rest) = 0 :: 0 :: 0 :: 1 :: (nal ++ annexB rest) := by
  simp [annexB]

theorem annexB_append (a b : List (List UInt8)) : annexB (a ++ b) = annexB a ++ annexB b := by
  simp [annexB]

def Coded (bytes : List UInt8) : Prop :=
  ∃ rest, bytes = 0 :: 0 :: 1 :: rest ∨ bytes = 0 :: 0 :: 0 :: 1 :: rest

theorem startCode_cons {x : UInt8} {rest : List UInt8} (h : ¬ Coded (x :: rest)) :
    startCode (x :: rest) = (startCode rest).map fun sc => (sc.1 + 1, sc.2) := by
  conv_lhs => unfold startCode
  split
  · exact absurd ⟨_, Or.inr rfl⟩ h
  · exact absurd ⟨_, Or.inl rfl⟩ h
  · rfl

theorem startCode_coded {bytes : List UInt8} (h : Coded bytes) :
    ∃ n, startCode bytes = some (0, n) := by
  obtain ⟨rest, rfl | rfl⟩ := h
  · exact ⟨3, by simp [startCode]⟩
  · exact ⟨4, by simp [startCode]⟩

theorem startCode_none {x : UInt8} {rest : List UInt8} :
    startCode (x :: rest) = none ↔ ¬ Coded (x :: rest) ∧ startCode rest = none := by
  constructor
  · intro h
    have hhead : ¬ Coded (x :: rest) := by
      intro hc
      obtain ⟨n, hsome⟩ := startCode_coded hc
      rw [h] at hsome
      cases hsome
    rw [startCode_cons hhead, Option.map_eq_none_iff] at h
    exact ⟨hhead, h⟩
  · rintro ⟨hhead, hrest⟩
    rw [startCode_cons hhead, hrest]
    rfl

theorem Coded.append {bytes : List UInt8} (h : Coded bytes) (more : List UInt8) :
    Coded (bytes ++ more) := by
  obtain ⟨rest, rfl | rfl⟩ := h
  · exact ⟨rest ++ more, Or.inl rfl⟩
  · exact ⟨rest ++ more, Or.inr rfl⟩

theorem startCode_front {front more : List UInt8} (h : startCode (front ++ more) = none) :
    startCode front = none := by
  induction front with
  | nil => rfl
  | cons x rest ih =>
    rw [List.cons_append, startCode_none] at h
    exact startCode_none.mpr ⟨fun hc => h.1 (hc.append more), ih h.2⟩

theorem startCode_take {bytes : List UInt8} {o n : ℕ} (h : startCode bytes = some (o, n)) :
    startCode (bytes.take o) = none := by
  induction bytes generalizing o n with
  | nil => cases h
  | cons x rest ih =>
    by_cases hc : Coded (x :: rest)
    · obtain ⟨m, hsome⟩ := startCode_coded hc
      rw [hsome] at h
      obtain ⟨rfl, -⟩ := Prod.mk.inj (Option.some.inj h)
      rfl
    · rw [startCode_cons hc, Option.map_eq_some_iff] at h
      obtain ⟨⟨o', n'⟩, hrest, he⟩ := h
      obtain ⟨rfl, -⟩ := Prod.mk.inj he
      rw [List.take_succ_cons]
      refine startCode_none.mpr ⟨fun hc' => hc ?_, ih hrest⟩
      have := hc'.append (rest.drop o')
      rwa [List.cons_append, List.take_append_drop] at this

theorem trimZeros_front (bytes : List UInt8) : ∃ more, bytes = trimZeros bytes ++ more := by
  refine ⟨(bytes.reverse.takeWhile (· = 0)).reverse, ?_⟩
  rw [trimZeros, ← List.reverse_append, List.takeWhile_append_dropWhile, List.reverse_reverse]

theorem trimZeros_ended {bytes : List UInt8} (h : trimZeros bytes ≠ []) :
    ∃ init last, trimZeros bytes = init ++ [last] ∧ last ≠ 0 := by
  unfold trimZeros at h ⊢
  rw [Ne, List.reverse_eq_nil_iff] at h
  obtain ⟨last, init, hd⟩ := List.exists_cons_of_ne_nil h
  refine ⟨init.reverse, last, by rw [hd, List.reverse_cons], ?_⟩
  have hlast := List.head_dropWhile_not (fun x : UInt8 => decide (x = 0)) h
  simpa only [hd, List.head_cons, decide_eq_false_iff_not] using hlast

theorem trimZeros_of_ended {nal : List UInt8} (h : ∃ init last, nal = init ++ [last] ∧ last ≠ 0) :
    trimZeros nal = nal := by
  obtain ⟨init, last, rfl, hne⟩ := h
  rw [trimZeros, List.reverse_append, List.reverse_singleton, List.singleton_append,
    List.dropWhile_cons_of_neg (by simpa using hne), List.reverse_cons, List.reverse_reverse]

def gap (bytes : List UInt8) : ℕ :=
  match startCode bytes with
  | none => bytes.length
  | some (next, _) => next

theorem nals_none {bytes : List UInt8} (h : startCode bytes = none) : nals bytes = [] := by
  rw [nals]
  split
  · rfl
  · next hsc => simp [h] at hsc

theorem nals_some {bytes : List UInt8} {o n : ℕ} (h : startCode bytes = some (o, n)) :
    nals bytes =
      if trimZeros ((bytes.drop (o + n)).take (gap (bytes.drop (o + n)))) = [] then
        nals ((bytes.drop (o + n)).drop (gap (bytes.drop (o + n))))
      else trimZeros ((bytes.drop (o + n)).take (gap (bytes.drop (o + n)))) ::
        nals ((bytes.drop (o + n)).drop (gap (bytes.drop (o + n)))) := by
  conv_lhs => rw [nals]
  split
  · next hsc => simp [h] at hsc
  · next o' n' hsc =>
    obtain ⟨rfl, rfl⟩ := Prod.mk.inj (Option.some.inj (h.symm.trans hsc))
    rfl

theorem startCode_gap (bytes : List UInt8) : startCode (bytes.take (gap bytes)) = none := by
  unfold gap
  cases h : startCode bytes with
  | none => rwa [List.take_length]
  | some sc => exact startCode_take h

theorem nals_whole {bytes nal : List UInt8} (h : nal ∈ nals bytes) : Whole nal := by
  induction bytes using nals.induct with
  | case1 bytes hsc =>
    rw [nals_none hsc] at h
    exact absurd h List.not_mem_nil
  | case2 bytes o n hsc start size nal' hnil ih =>
    have hnil' : trimZeros ((bytes.drop (o + n)).take (gap (bytes.drop (o + n)))) = [] := hnil
    rw [nals_some hsc, if_pos hnil'] at h
    exact ih h
  | case3 bytes o n hsc start size nal' hne ih =>
    have hne' : trimZeros ((bytes.drop (o + n)).take (gap (bytes.drop (o + n)))) ≠ [] := hne
    rw [nals_some hsc, if_neg hne'] at h
    rcases List.mem_cons.mp h with rfl | h
    · obtain ⟨more, hmore⟩ := trimZeros_front ((bytes.drop (o + n)).take (gap (bytes.drop (o + n))))
      have hfront := startCode_gap (bytes.drop (o + n))
      rw [hmore] at hfront
      exact ⟨startCode_front hfront, trimZeros_ended hne⟩
    · exact ih h

theorem Whole.startCode {nal next : List UInt8} {n : ℕ} (h : Whole nal)
    (hnext : MediaCodec.startCode next = some (0, n)) :
    MediaCodec.startCode (nal ++ next) = some (nal.length, n) := by
  obtain ⟨huncoded, init, last, rfl, hne⟩ := h
  induction init with
  | nil =>
    have hhead : ¬ Coded (last :: next) := by
      rintro ⟨more, he | he⟩ <;> exact hne (List.cons.inj he).1
    rw [List.nil_append, List.singleton_append, startCode_cons hhead, hnext]
    rfl
  | cons x init ih =>
    rw [List.cons_append, startCode_none] at huncoded
    have hhead : ¬ Coded (x :: (init ++ [last] ++ next)) := by
      -- a start code at the head would lie in the unit, which ends in a byte that is not zero
      rintro ⟨more, he⟩
      apply huncoded.1
      match init with
      | [] => rcases he with he | he <;> simp_all [Coded]
      | [a] => rcases he with he | he <;> simp_all [Coded]
      | [a, b] => rcases he with he | he <;> simp_all [Coded]
      | a :: b :: c :: more' => rcases he with he | he <;> simp_all [Coded]
    rw [List.cons_append, List.cons_append, startCode_cons hhead, ih huncoded.2]
    rfl

def startBytes (short : Bool) : List UInt8 := if short then [0, 0, 1] else [0, 0, 0, 1]

def mixed (units : List (Bool × List UInt8)) : List UInt8 :=
  units.flatMap fun unit => startBytes unit.1 ++ unit.2

@[simp] theorem mixed_nil : mixed [] = [] := rfl

@[simp] theorem mixed_cons (unit : Bool × List UInt8) (rest : List (Bool × List UInt8)) :
    mixed (unit :: rest) = startBytes unit.1 ++ (unit.2 ++ mixed rest) := by
  rw [mixed, List.flatMap_cons, List.append_assoc, mixed]

theorem mixed_long (units : List (List UInt8)) : mixed (units.map (false, ·)) = annexB units := by
  rw [mixed, annexB, List.flatMap_map]
  rfl

theorem startCode_startBytes (short : Bool) (rest : List UInt8) :
    startCode (startBytes short ++ rest) = some (0, (startBytes short).length) := by
  cases short <;> simp [startBytes, startCode]

theorem nals_mixed {units : List (Bool × List UInt8)} (h : ∀ unit ∈ units, Whole unit.2) :
    nals (mixed units) = units.map Prod.snd := by
  induction units with
  | nil => rw [mixed_nil, nals_none rfl, List.map_nil]
  | cons unit rest ih =>
    have hunit := h unit List.mem_cons_self
    have hrest := ih fun other hother => h other (List.mem_cons_of_mem _ hother)
    have hgap : gap (unit.2 ++ mixed rest) = unit.2.length := by
      unfold gap
      cases rest with
      | nil => rw [mixed_nil, List.append_nil, hunit.uncoded]
      | cons next rest => rw [mixed_cons, hunit.startCode (startCode_startBytes next.1 _)]
    have hne : unit.2 ≠ [] := by
      obtain ⟨init, last, hends, -⟩ := hunit.ended
      simp [hends]
    rw [mixed_cons, nals_some (startCode_startBytes unit.1 _), Nat.zero_add, List.drop_left, hgap,
      List.take_left, List.drop_left, trimZeros_of_ended hunit.ended, if_neg hne, hrest,
      List.map_cons]

theorem nals_annexB {units : List (List UInt8)} (h : ∀ nal ∈ units, Whole nal) :
    nals (annexB units) = units := by
  have hwhole : ∀ unit ∈ units.map (false, ·), Whole unit.2 := by
    intro unit hunit
    obtain ⟨nal, hnal, rfl⟩ := List.mem_map.mp hunit
    exact h nal hnal
  rw [← mixed_long, nals_mixed hwhole, List.map_map]
  exact List.map_id units

end AnnexB
