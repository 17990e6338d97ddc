import NginxMedia.MediaCompat

/-! The verdict of `ngx_media_compat_classify()` as a worst case: every track of the program is
held against every candidate of its media type, so the order of neither list matters, and a list
with two tracks of one type is also held against itself crosswise. -/
namespace CompatVerdict

open MediaTypes MediaCompat

variable {p q p' q' : TrackSet} {a b : Track} {n : ℕ}

theorem rank_injective : Function.Injective Compat.rank := by
  intro x y h
  cases x <;> cases y <;> first | rfl | exact absurd h (by decide)

theorem rank_pos (x : Compat) : 1 ≤ x.rank := by
  cases x <;> decide

theorem rank_le (x : Compat) : x.rank ≤ 3 := by
  cases x <;> decide

theorem eq_of_bounds {x y : Compat} (h : ∀ n, x.rank ≤ n ↔ y.rank ≤ n) : x = y :=
  rank_injective (Nat.le_antisymm ((h _).mpr (Nat.le_refl _)) ((h _).mp (Nat.le_refl _)))

theorem worst_le (x y : Compat) : (worst x y).rank ≤ n ↔ x.rank ≤ n ∧ y.rank ≤ n := by
  unfold worst
  split_ifs <;> omega

def Opposite (q : TrackSet) (a c : Track) : Prop := c ∈ q ∧ c.mediaType = a.mediaType

def Matched (q : TrackSet) (a : Track) : Prop := ∃ c, Opposite q a c

theorem against_spec (a : Track) (q : TrackSet) (found : Bool) (result : Compat) :
    (q.foldl (fun acc c =>
        if c.mediaType ≠ a.mediaType then acc
        else (true, worst acc.2 (track a c))) (found, result)).1 =
      (found || decide (∃ c ∈ q, c.mediaType = a.mediaType)) ∧
    ∀ n, (q.foldl (fun acc c =>
        if c.mediaType ≠ a.mediaType then acc
        else (true, worst acc.2 (track a c))) (found, result)).2.rank ≤ n ↔
      result.rank ≤ n ∧ ∀ c, Opposite q a c → (track a c).rank ≤ n := by
  induction q generalizing found result with
  | nil =>
    refine ⟨by simp, fun n => ⟨fun h => ⟨h, ?_⟩, And.left⟩⟩
    rintro c ⟨hc, -⟩
    exact absurd hc List.not_mem_nil
  | cons c rest ih =>
    rw [List.foldl_cons]
    by_cases htype : c.mediaType = a.mediaType
    · rw [if_neg (not_not_intro htype)]
      obtain ⟨hfound, hbound⟩ := ih true (worst result (track a c))
      refine ⟨?_, fun n => ?_⟩
      · rw [hfound]
        simp [htype]
      · rw [hbound, worst_le, and_assoc]
        refine and_congr_right fun _ => ⟨?_, ?_⟩
        · rintro ⟨hc, hrest⟩ d ⟨hd, hdtype⟩
          rcases List.mem_cons.mp hd with rfl | hd
          · exact hc
          · exact hrest d ⟨hd, hdtype⟩
        · exact fun hall => ⟨hall c ⟨List.mem_cons_self, htype⟩,
            fun d hd => hall d ⟨List.mem_cons_of_mem _ hd.1, hd.2⟩⟩
    · rw [if_pos htype]
      obtain ⟨hfound, hbound⟩ := ih found result
      refine ⟨?_, fun n => ?_⟩
      · rw [hfound]
        simp [htype]
      · rw [hbound]
        refine and_congr_right fun _ => ⟨?_, ?_⟩
        · rintro hrest d ⟨hd, hdtype⟩
          rcases List.mem_cons.mp hd with rfl | hd
          · exact absurd hdtype htype
          · exact hrest d ⟨hd, hdtype⟩
        · exact fun hall d hd => hall d ⟨List.mem_cons_of_mem _ hd.1, hd.2⟩

theorem against_found (a : Track) (q : TrackSet) (result : Compat) :
    (against a q result).1 = true ↔ Matched q a := by
  rw [against, (against_spec a q false result).1, Bool.false_or, decide_eq_true_eq]
  exact Iff.rfl

theorem against_le (a : Track) (q : TrackSet) (result : Compat) :
    (against a q result).2.rank ≤ n ↔
      result.rank ≤ n ∧ ∀ c, Opposite q a c → (track a c).rank ≤ n :=
  (against_spec a q false result).2 n

theorem classifyLoop_none (q p : TrackSet) (result : Compat) :
    classifyLoop q p result = none ↔ ¬ ∀ a ∈ p, Matched q a := by
  induction p generalizing result with
  | nil => simp [classifyLoop]
  | cons a rest ih =>
    rw [classifyLoop, List.forall_mem_cons]
    by_cases hmatched : Matched q a
    · rw [if_pos ((against_found a q result).mpr hmatched), ih]
      simp [hmatched]
    · rw [if_neg fun h => hmatched ((against_found a q result).mp h)]
      simp [hmatched]

theorem classifyLoop_le {q p : TrackSet} {result x : Compat}
    (h : classifyLoop q p result = some x) :
    x.rank ≤ n ↔ result.rank ≤ n ∧ ∀ a ∈ p, ∀ c, Opposite q a c → (track a c).rank ≤ n := by
  induction p generalizing result with
  | nil =>
    obtain rfl := Option.some.inj h
    simp
  | cons a rest ih =>
    rw [classifyLoop] at h
    split_ifs at h with hfound
    rw [ih h, against_le, List.forall_mem_cons, and_assoc]

theorem classify_le (hp : p ≠ []) : (classify (some p) (some q)).rank ≤ n ↔
    1 ≤ n ∧ ((∀ a ∈ p, Matched q a) ∨ 3 ≤ n) ∧
      (∀ a ∈ p, ∀ c, Opposite q a c → (track a c).rank ≤ n) ∧
      (p.length < q.length → 2 ≤ n) := by
  have hlength : p.length ≠ 0 := fun h => hp (List.length_eq_zero_iff.mp h)
  unfold classify
  dsimp only
  rw [if_neg hlength]
  cases hloop : classifyLoop q p .ready with
  | none =>
    have hmissing := (classifyLoop_none q p .ready).mp hloop
    refine ⟨fun (h : 3 ≤ n) => ⟨by omega, Or.inr h, fun a _ c _ => Nat.le_trans (rank_le _) h,
      fun _ => by omega⟩, ?_⟩
    rintro ⟨-, hmatched | h, -, -⟩
    · exact absurd hmatched hmissing
    · exact h
  | some x =>
    have hmatched : ∀ a ∈ p, Matched q a := by
      by_contra hmissing
      rw [(classifyLoop_none q p .ready).mpr hmissing] at hloop
      contradiction
    have hready : Compat.ready.rank ≤ n ↔ 1 ≤ n := Iff.rfl
    dsimp only
    by_cases hmore : q.length > p.length
    · have hdegraded : Compat.degraded.rank ≤ n ↔ 2 ≤ n := Iff.rfl
      rw [if_pos hmore, worst_le, classifyLoop_le hloop, hready, hdegraded, and_assoc]
      exact and_congr_right fun _ => ⟨fun h => ⟨Or.inl hmatched, h.1, fun _ => h.2⟩,
        fun h => ⟨h.2.1, h.2.2 hmore⟩⟩
    · rw [if_neg hmore, classifyLoop_le hloop, hready]
      exact and_congr_right fun _ => ⟨fun h => ⟨Or.inl hmatched, h, fun hless => absurd hless hmore⟩,
        fun h => h.2.1⟩

theorem classify_perm (hp : p.Perm p') (hq : q.Perm q') :
    classify (some p) (some q) = classify (some p') (some q') := by
  by_cases hnil : p = []
  · subst hnil
    rw [hp.symm.eq_nil]
    rfl
  have hnil' : p' ≠ [] := by
    rintro rfl
    exact hnil hp.eq_nil
  refine eq_of_bounds fun n => ?_
  have hopposite : ∀ a c, Opposite q a c ↔ Opposite q' a c := fun a c =>
    and_congr_left fun _ => hq.mem_iff
  have hmatched : ∀ a, Matched q a ↔ Matched q' a := fun a => exists_congr (hopposite a)
  rw [classify_le hnil, classify_le hnil', hp.length_eq, hq.length_eq]
  simp only [hp.mem_iff, hopposite, hmatched]

def Differ (x y : ℕ) : Prop := x ≠ 0 ∧ y ≠ 0 ∧ x ≠ y

structure Interchangeable (a b : Track) : Prop where
  codec : a.codec = b.codec
  payloadFormat : a.payloadFormat = b.payloadFormat
  audio : a.mediaType = .audio → ¬ Differ a.sampleRate b.sampleRate ∧
    ¬ Differ a.channels b.channels ∧ ¬ Differ a.profile b.profile
  video : a.mediaType = .video → ¬ Differ a.profile b.profile ∧ ¬ Differ a.level b.level ∧
    ¬ Differ a.width b.width ∧ ¬ Differ a.height b.height

theorem differs_iff (x y : ℕ) : differs x y = true ↔ Differ x y := by
  simp [differs, Differ, and_assoc]

theorem track_ready_iff (h : a.mediaType = b.mediaType) :
    track a b = .ready ↔ Interchangeable a b := by
  have haudio : (differs a.sampleRate b.sampleRate || differs a.channels b.channels ||
      differs a.profile b.profile) = true ↔
        Differ a.sampleRate b.sampleRate ∨ Differ a.channels b.channels ∨
          Differ a.profile b.profile := by
    simp only [Bool.or_eq_true, differs_iff, or_assoc]
  have hvideo : (differs a.profile b.profile || differs a.level b.level ||
      differs a.width b.width || differs a.height b.height) = true ↔
        Differ a.profile b.profile ∨ Differ a.level b.level ∨ Differ a.width b.width ∨
          Differ a.height b.height := by
    simp only [Bool.or_eq_true, differs_iff, or_assoc]
  unfold track
  split_ifs with h₁ h₂ h₃ h₄ h₅
  · exact ⟨fun h => by contradiction, fun hi => absurd hi.codec h₁⟩
  · exact absurd h h₂
  · refine ⟨fun h => by contradiction, fun hi => ?_⟩
    obtain ⟨hrate, hchannels, hprofile⟩ := hi.audio h₃.1
    rcases haudio.mp h₃.2 with h | h | h
    · exact absurd h hrate
    · exact absurd h hchannels
    · exact absurd h hprofile
  · refine ⟨fun h => by contradiction, fun hi => ?_⟩
    obtain ⟨hprofile, hlevel, hwidth, hheight⟩ := hi.video h₄.1
    rcases hvideo.mp h₄.2 with h | h | h | h
    · exact absurd h hprofile
    · exact absurd h hlevel
    · exact absurd h hwidth
    · exact absurd h hheight
  · exact ⟨fun h => by contradiction, fun hi => absurd hi.payloadFormat h₅⟩
  · refine ⟨fun _ => ⟨not_not.mp h₁, not_not.mp h₅, fun htype => ?_, fun htype => ?_⟩, fun _ => rfl⟩
    · have hnone := fun h => h₃ ⟨htype, haudio.mpr h⟩
      exact ⟨fun h => hnone (Or.inl h), fun h => hnone (Or.inr (Or.inl h)),
        fun h => hnone (Or.inr (Or.inr h))⟩
    · have hnone := fun h => h₄ ⟨htype, hvideo.mpr h⟩
      exact ⟨fun h => hnone (Or.inl h), fun h => hnone (Or.inr (Or.inl h)),
        fun h => hnone (Or.inr (Or.inr (Or.inl h))),
        fun h => hnone (Or.inr (Or.inr (Or.inr h)))⟩

def Uniform (p : TrackSet) : Prop :=
  ∀ a ∈ p, ∀ b ∈ p, b.mediaType = a.mediaType → Interchangeable a b

theorem classify_self_iff (p : TrackSet) : classify (some p) (some p) = .ready ↔ Uniform p := by
  by_cases hnil : p = []
  · subst hnil
    exact ⟨fun _ a ha => absurd ha List.not_mem_nil, fun _ => rfl⟩
  have hrank : classify (some p) (some p) = .ready ↔ (classify (some p) (some p)).rank ≤ 1 :=
    ⟨fun h => h ▸ Nat.le_refl 1, fun h => rank_injective (Nat.le_antisymm h (rank_pos _))⟩
  rw [hrank, classify_le hnil]
  refine ⟨?_, fun h => ⟨Nat.le_refl 1, Or.inl fun a ha => ⟨a, ha, rfl⟩, ?_, fun hless => ?_⟩⟩
  · rintro ⟨-, -, hpairs, -⟩ a ha b hb htype
    have hone := Nat.le_antisymm (hpairs a ha b ⟨hb, htype⟩) (rank_pos _)
    exact (track_ready_iff htype.symm).mp (rank_injective hone)
  · intro a ha b hb
    rw [(track_ready_iff hb.2.symm).mpr (h a ha b hb.1 hb.2)]
    exact Nat.le_refl 1
  · exact absurd hless (Nat.lt_irrefl _)

def Judged (p : TrackSet) : Prop :=
  (∀ q, q.Perm p → classify (some p) (some q) = .ready) ∧
    ∀ p' q q', p'.Perm p → q'.Perm q →
      classify (some p') (some q') = classify (some p) (some q)

/-- An identical source is ready exactly if tracks of one media type are interchangeable. -/
theorem identical_ready_iff (p : TrackSet) : Judged p ↔ Uniform p := by
  refine ⟨fun h => (classify_self_iff p).mp (h.1 p (List.Perm.refl p)), fun h => ⟨?_, ?_⟩⟩
  · intro q hq
    rw [classify_perm (List.Perm.refl p) hq]
    exact (classify_self_iff p).mpr h
  · exact fun p' q q' hp hq => classify_perm hp hq

/-- A stereo programme with a second, surround mix. -/
def twoMixes : TrackSet :=
  [⟨.audio, .aac, .raw, 0, 0, 0, 0, 0, 0, 48000, 2, none⟩,
    ⟨.audio, .aac, .raw, 0, 0, 0, 0, 0, 0, 48000, 6, none⟩]

theorem two_mixes_degraded : ¬ Judged twoMixes := fun h =>
  absurd (h.1 twoMixes (List.Perm.refl twoMixes)) (by decide)

end CompatVerdict
