import NginxMedia.MediaFeed
import NginxMedia.Quantile

/-! The percentiles of the fan-out histogram of `ngx_media_feed.c`: the upper bound of the bucket a
percentile falls in, which is no bound where the last bucket's is below the delays in it. -/
namespace MediaPercentile

open MediaFeed Quantile

def percentileLoop (hist : Hist) (target : ℕ) : ℕ → ℕ → ℕ → ℕ
  | 0, _, _ => hist.max
  | n + 1, i, seen =>
    if seen + hist.buckets i ≥ target then 2 ^ i
    else percentileLoop hist target n (i + 1) (seen + hist.buckets i)

def fanoutPercentile (hist : Hist) (permille : ℕ) : ℕ :=
  if hist.count = 0 ∨ permille = 0 then 0
  else
    let permille := if permille > 1000 then 1000 else permille
    percentileLoop hist ((hist.count * permille + 999) / 1000) histBuckets 0 0

def recorded (delays : List ℕ) : Hist := delays.foldl Hist.record .empty

def clamp (delay : ℕ) : ℕ := if delay > 60000 then 60000 else delay

def bucketOf (delay : ℕ) : ℕ := histBucket delay histBuckets 0 1

variable {delay n i j target permille : ℕ} {delays : List ℕ} {hist : Hist}

theorem histBucket_spec (hfuel : 15 ≤ i + n) (hi : i ≤ 15) (hlow : i = 0 ∨ 2 ^ (i - 1) < delay) :
    histBucket delay n i (2 ^ i) ≤ 15 ∧
      (delay ≤ 2 ^ histBucket delay n i (2 ^ i) ∨ histBucket delay n i (2 ^ i) = 15) ∧
      (histBucket delay n i (2 ^ i) = 0 ∨
        2 ^ (histBucket delay n i (2 ^ i) - 1) < delay) := by
  induction n generalizing i with
  | zero => exact ⟨hi, Or.inr (by rw [histBucket]; omega), hlow⟩
  | succ n ih =>
    rw [histBucket, histBuckets]
    split_ifs with hnext
    · rw [← Nat.pow_succ]
      exact ih (by omega) (by omega) (Or.inr (by rw [Nat.add_sub_cancel]; exact hnext.1))
    · refine ⟨hi, ?_, hlow⟩
      rcases Nat.lt_or_ge (2 ^ i) delay with hlt | hle
      · exact Or.inr (by omega)
      · exact Or.inl hle

theorem bucketOf_spec (delay : ℕ) : bucketOf delay ≤ 15 ∧
    (delay ≤ 2 ^ bucketOf delay ∨ bucketOf delay = 15) ∧
      (bucketOf delay = 0 ∨ 2 ^ (bucketOf delay - 1) < delay) :=
  @histBucket_spec delay histBuckets 0 (by decide) (by decide) (Or.inl rfl)

theorem bucketOf_le_iff (hi : i < 15) : bucketOf delay < i + 1 ↔ delay ≤ 2 ^ i := by
  obtain ⟨-, hhigh, hlow⟩ := bucketOf_spec delay
  constructor
  · intro hlt
    have hpow : 2 ^ bucketOf delay ≤ 2 ^ i := Nat.pow_le_pow_right (by decide) (by omega)
    omega
  · intro hle
    rcases hlow with hzero | hlow
    · omega
    · have := (Nat.pow_lt_pow_iff_right (by decide)).mp (Nat.lt_of_lt_of_le hlow hle)
      omega

theorem foldl_record (hist : Hist) (delays : List ℕ) :
    (delays.foldl Hist.record hist).count = hist.count + (delays.map clamp).length ∧
      ∀ i, (delays.foldl Hist.record hist).buckets i =
        hist.buckets i + (delays.map clamp).countP fun d => decide (bucketOf d = i) := by
  induction delays generalizing hist with
  | nil => exact ⟨rfl, fun _ => rfl⟩
  | cons d delays ih =>
    obtain ⟨hcount, hbuckets⟩ := ih (hist.record d)
    rw [List.foldl_cons, List.map_cons]
    refine ⟨?_, fun i => ?_⟩
    · rw [hcount, List.length_cons, Nat.add_comm _ 1, ← Nat.add_assoc]
      rfl
    · have hbucket : (hist.record d).buckets i =
          hist.buckets i + if bucketOf (clamp d) = i then 1 else 0 := by
        change Function.update hist.buckets (bucketOf (clamp d)) _ i = _
        by_cases hi : bucketOf (clamp d) = i
        · rw [if_pos hi, ← hi, Function.update_self]
          rfl
        · rw [if_neg hi, Function.update_of_ne (Ne.symm hi), Nat.add_zero]
      rw [hbuckets, hbucket, List.countP_cons, Nat.add_assoc, Nat.add_comm (ite _ _ _)]
      simp only [decide_eq_true_eq]

theorem countP_below (l : List ℕ) (i : ℕ) :
    (l.countP fun d => decide (bucketOf d < i + 1)) =
      (l.countP fun d => decide (bucketOf d < i)) + l.countP fun d => decide (bucketOf d = i) := by
  induction l with
  | nil => rfl
  | cons d l ih =>
    rw [List.countP_cons, List.countP_cons, List.countP_cons, ih]
    simp only [decide_eq_true_eq]
    split_ifs <;> omega

theorem percentileLoop_spec {l : List ℕ}
    (hbuckets : ∀ i, hist.buckets i = l.countP fun d => decide (bucketOf d = i))
    (hi : i + n = histBuckets) (hall : target ≤ l.countP fun d => decide (bucketOf d < histBuckets))
    (hless : i < histBuckets) :
    ∃ j < histBuckets, percentileLoop hist target n i
        (l.countP fun d => decide (bucketOf d < i)) = 2 ^ j ∧
      (target ≤ l.countP fun d => decide (bucketOf d < j + 1)) ∧
      ∀ k, i ≤ k → k < j → (l.countP fun d => decide (bucketOf d < k + 1)) < target := by
  induction n generalizing i with
  | zero => omega
  | succ n ih =>
    rw [percentileLoop, hbuckets, ← countP_below]
    split_ifs with henough
    · exact ⟨i, hless, rfl, henough, fun k _ _ => by omega⟩
    · have hnext : i + 1 < histBuckets := by
        by_contra hlast
        have heq : i + 1 = histBuckets := by omega
        exact henough (heq ▸ hall)
      obtain ⟨j, hj, heq, hreach, hbefore⟩ := ih (by omega) hnext
      refine ⟨j, hj, heq, hreach, fun k hik hkj => ?_⟩
      rcases Nat.eq_or_lt_of_le hik with rfl | hik
      · exact Nat.lt_of_not_le henough
      · exact hbefore k hik hkj

/-- The answer is a bound of the percentile, and less than twice it below the last bucket. -/
def Bounds (delays : List ℕ) (permille : ℕ) : Prop :=
  percentile (delays.map clamp) permille ≤ fanoutPercentile (recorded delays) permille ∧
    (fanoutPercentile (recorded delays) permille ≠ 2 ^ 15 →
      fanoutPercentile (recorded delays) permille < 2 * percentile (delays.map clamp) permille ∨
        fanoutPercentile (recorded delays) permille = 1)

theorem percentile_bounds_iff (hne : delays ≠ []) (h0 : 0 < permille) (hmax : permille ≤ 1000) :
    Bounds delays permille ↔ percentile (delays.map clamp) permille ≤ 2 ^ 15 := by
  obtain ⟨hcount, hbuckets⟩ := foldl_record .empty delays
  have hlength : (recorded delays).count = (delays.map clamp).length :=
    hcount.trans (Nat.zero_add _)
  have hcounted : ∀ i, (recorded delays).buckets i =
      (delays.map clamp).countP fun d => decide (bucketOf d = i) := fun i =>
    (hbuckets i).trans (Nat.zero_add _)
  have hpos : 0 < (delays.map clamp).length := by
    rw [List.length_map]
    exact List.length_pos_of_ne_nil hne
  have hall : ((delays.map clamp).countP fun d => decide (bucketOf d < histBuckets)) =
      (delays.map clamp).length :=
    List.countP_eq_length.mpr fun d _ =>
      decide_eq_true (Nat.lt_succ_of_le (bucketOf_spec d).1)
  have hnone : ((delays.map clamp).countP fun d => decide (bucketOf d < 0)) = 0 :=
    List.countP_eq_zero.mpr fun d _ h => Nat.not_lt_zero _ (of_decide_eq_true h)
  have hvalue : fanoutPercentile (recorded delays) permille = percentileLoop (recorded delays)
      (((delays.map clamp).length * permille + 999) / 1000) histBuckets 0
      ((delays.map clamp).countP fun d => decide (bucketOf d < 0)) := by
    unfold fanoutPercentile
    rw [if_neg (by omega), if_neg (by omega), hlength, hnone]
  have henough : ((delays.map clamp).length * permille + 999) / 1000 ≤
      (delays.map clamp).length := by
    have := Nat.mul_le_mul_left (delays.map clamp).length hmax
    omega
  obtain ⟨j, hj, heq, hreach, hbefore⟩ := percentileLoop_spec (i := 0) (n := histBuckets) hcounted
    (Nat.zero_add _) (henough.trans_eq hall.symm) (by decide)
  have hcovers : ∀ k < 15, ((((delays.map clamp).length * permille + 999) / 1000 ≤
      (delays.map clamp).countP fun d => decide (bucketOf d < k + 1)) ↔
        percentile (delays.map clamp) permille ≤ 2 ^ k) := by
    intro k hk
    have hsame : ((delays.map clamp).countP fun d => decide (bucketOf d < k + 1)) =
        (delays.map clamp).countP fun d => decide (d ≤ 2 ^ k) :=
      List.countP_congr fun d _ => by
        rw [decide_eq_true_eq, decide_eq_true_eq]
        exact bucketOf_le_iff hk
    rw [percentile_le_iff hmax, hsame]
    unfold Covers
    omega
  have hlow : ∀ k < j, 2 ^ k < percentile (delays.map clamp) permille := fun k hk => by
    have hnot := mt (hcovers k (by unfold histBuckets at hj; omega)).mpr
      (Nat.not_le_of_lt (hbefore k (Nat.zero_le _) hk))
    exact Nat.lt_of_not_le hnot
  unfold Bounds
  rw [hvalue, heq]
  rcases Nat.lt_or_ge j 15 with hless | hlast
  · have hle := (hcovers j hless).mp hreach
    have hpow : 2 ^ j ≤ 2 ^ 15 := Nat.pow_le_pow_right (by decide) (by omega)
    refine iff_of_true ⟨hle, fun _ => ?_⟩ (hle.trans hpow)
    cases j with
    | zero => exact Or.inr rfl
    | succ j =>
      have := hlow j (Nat.lt_succ_self j)
      rw [Nat.pow_succ]
      exact Or.inl (by omega)
  · obtain rfl : j = 15 := by
      unfold histBuckets at hj
      omega
    exact ⟨And.left, fun hle => ⟨hle, fun h => absurd rfl h⟩⟩

theorem percentile_bounds_iff_median : Bounds [3, 5, 900] 500 :=
  (percentile_bounds_iff (by decide) (by decide) (by decide)).mpr
    ((percentile_le_iff (by decide)).mpr (by unfold Covers; decide))

/-- One delay beyond the last bound. -/
theorem late_delay_hidden : ¬Bounds [60000] 1000 := by
  rintro ⟨hle, -⟩
  have hvalue : fanoutPercentile (recorded [60000]) 1000 = 32768 := by decide
  have hmem := percentile_mem (l := [60000].map clamp) (q := 1000) (by decide) (by decide)
    (by decide)
  have htrue : percentile ([60000].map clamp) 1000 = 60000 := List.mem_singleton.mp hmem
  rw [hvalue, htrue] at hle
  exact absurd hle (by decide)

end MediaPercentile
