import NginxMedia.DesiredReading

/-! How long the document of a graph is, from what the graph holds. -/
namespace DesiredGraph

open ByteString ApiJson
open MediaGraph (mediaProfile)

variable {reg : Registry}

def quotedLength (text : Str) : ℕ :=
  2 + (text.map fun c =>
    if c = 34 ∨ c = 92 ∨ c = 8 ∨ c = 9 ∨ c = 10 ∨ c = 12 ∨ c = 13 then 2
    else if c < 32 then 6
    else 1).sum

/-- An object with these keys, whose values take so many bytes. -/
def membersLength (members : List (String × ℕ)) : ℕ :=
  (members.map fun m => m.1.length + 4 + m.2).sum + 1

def arrayLength (lengths : List ℕ) : ℕ := lengths.sum + max 1 lengths.length + 1

def flagLength (b : Bool) : ℕ := if b then 4 else 5

def Source.documentLength (x : Source) : ℕ :=
  membersLength ([("id", quotedLength x.id), ("type", (decimal x.type).length),
      ("priority", (decimal x.priority).length), ("path", quotedLength x.path)] ++
    (if x.caFile ≠ [] then [("ca_file", quotedLength x.caFile)] else []) ++
    [("enabled", flagLength x.enabled), ("revision", (decimal x.revision).length)])

def Destination.documentLength (d : Destination) : ℕ :=
  membersLength [("id", quotedLength d.id), ("type", (decimal d.type).length),
    ("host", quotedLength d.host), ("port", (decimal d.port).length),
    ("enabled", flagLength d.enabled), ("revision", (decimal d.revision).length)]

def Stream.documentLength (s : Stream) : ℕ :=
  membersLength [("application", quotedLength s.application), ("name", quotedLength s.name),
    ("revision", (decimal s.revision).length),
    ("media", if s.mediaMode = mediaProfile then 9 else 8),
    ("sources", arrayLength (s.sources.map (·.documentLength))),
    ("destinations", arrayLength (s.destinations.map (·.documentLength))),
    ("fanout_ms", membersLength [("p50", (decimal s.fanout.p50).length),
      ("p95", (decimal s.fanout.p95).length), ("p99", (decimal s.fanout.p99).length),
      ("max", (decimal s.fanout.max).length), ("bucket_upper_ms", 61),
      ("bucket_counts", arrayLength (s.fanout.buckets.map fun n => (decimal n).length))]),
    ("dispatched", (decimal s.fanout.dispatched).length)]

def documentLength (reg : Registry) : ℕ :=
  membersLength [("streams", arrayLength (reg.map (·.documentLength))),
    ("count", (decimal reg.length).length)]

theorem length_quoteByte (c : UInt8) : (quoteByte c).length =
    if c = 34 ∨ c = 92 ∨ c = 8 ∨ c = 9 ∨ c = 10 ∨ c = 12 ∨ c = 13 then 2
    else if c < 32 then 6
    else 1 := by
  unfold quoteByte
  by_cases h : c = 34 ∨ c = 92 ∨ c = 8 ∨ c = 9 ∨ c = 10 ∨ c = 12 ∨ c = 13
  · rw [if_pos h]
    rcases h with rfl | rfl | rfl | rfl | rfl | rfl | rfl <;> rfl
  · rw [if_neg h]
    simp only [not_or] at h
    obtain ⟨h34, h92, h8, h9, h10, h12, h13⟩ := h
    simp only [h34, h92, h8, h9, h10, h12, h13, if_false]
    split <;> rfl

theorem length_jsonString (text : Str) : (jsonString text).length = quotedLength text := by
  have hinner : (text.flatMap quoteByte).length = (text.map fun c =>
      if c = 34 ∨ c = 92 ∨ c = 8 ∨ c = 9 ∨ c = 10 ∨ c = 12 ∨ c = 13 then 2
      else if c < 32 then 6
      else 1).sum := by
    rw [List.length_flatMap]
    exact congrArg List.sum (List.map_congr_left fun c _ => length_quoteByte c)
  rw [jsonString, List.length_cons, List.length_append, hinner, quotedLength,
    List.length_singleton]
  omega

def Counted (m : Str × Value) (l : String × ℕ) : Prop :=
  (jsonString m.1).length = l.1.length + 2 ∧ m.2.text.length = l.2

theorem length_laterMembers_counted {ms : List (Str × Value)} {ls : List (String × ℕ)}
    (h : List.Forall₂ Counted ms ls) :
    (laterMembers ms).length + 1 = membersLength ls := by
  induction h with
  | nil => rfl
  | @cons m l ms ls hm _ ih =>
    obtain ⟨k, v⟩ := m
    obtain ⟨hkey, hvalue⟩ := hm
    rw [laterMembers]
    simp only [membersLength, List.map_cons, List.sum_cons, List.length_cons,
      List.length_append] at ih hkey hvalue ⊢
    omega

theorem length_object {m : Str × Value} {ms : List (Str × Value)} {ls : List (String × ℕ)}
    (h : List.Forall₂ Counted (m :: ms) ls) :
    (Value.object (m :: ms)).text.length = membersLength ls := by
  obtain ⟨k, v⟩ := m
  rw [← length_laterMembers_counted h, Value.text, laterMembers]
  simp only [List.length_cons, List.length_append, List.length_nil]
  omega

theorem length_laterElements_sum (vs : List Value) : (laterElements vs).length =
    (vs.map fun v => v.text.length).sum + vs.length := by
  induction vs with
  | nil => rfl
  | cons v vs ih =>
    rw [laterElements]
    simp only [List.length_cons, List.length_append, List.map_cons, List.sum_cons, ih]
    omega

theorem length_array (vs : List Value) :
    (Value.array vs).text.length = arrayLength (vs.map fun v => v.text.length) := by
  cases vs with
  | nil =>
    rw [Value.text]
    rfl
  | cons v vs =>
    rw [Value.text, arrayLength]
    simp only [List.length_cons, List.length_append, List.length_nil, length_laterElements_sum,
      List.map_cons, List.sum_cons, List.length_map]
    omega

theorem counted_string (key : String) (hkey : (jsonString (ascii key)).length = key.length + 2)
    (text : Str) : Counted (ascii key, .string text) (key, quotedLength text) := by
  refine ⟨hkey, ?_⟩
  rw [Value.text]
  exact length_jsonString text

theorem counted_number (key : String) (hkey : (jsonString (ascii key)).length = key.length + 2)
    (n : ℕ) : Counted (ascii key, .number n) (key, (decimal n).length) := by
  refine ⟨hkey, ?_⟩
  rw [Value.text]

theorem counted_flag (key : String) (hkey : (jsonString (ascii key)).length = key.length + 2)
    (b : Bool) : Counted (ascii key, .flag b) (key, flagLength b) := by
  refine ⟨hkey, ?_⟩
  rw [Value.text]
  cases b <;> rfl

theorem counted_array {α : Type*} {key : String}
    (hkey : (jsonString (ascii key)).length = key.length + 2) {value : α → Value} {count : α → ℕ}
    {as : List α} (h : ∀ a ∈ as, (value a).text.length = count a) :
    Counted (ascii key, .array (as.map value)) (key, arrayLength (as.map count)) := by
  refine ⟨hkey, ?_⟩
  rw [length_array, List.map_map]
  exact congrArg arrayLength (List.map_congr_left h)

theorem length_sourceText (x : Source) : (sourceText x).length = x.documentLength := by
  have hca : List.Forall₂ Counted
      ((if x.caFile ≠ [] then [(ascii "ca_file", .string x.caFile)] else []) ++
        [(ascii "enabled", .flag x.enabled), (ascii "revision", .number x.revision)])
      ((if x.caFile ≠ [] then [("ca_file", quotedLength x.caFile)] else []) ++
        [("enabled", flagLength x.enabled), ("revision", (decimal x.revision).length)]) := by
    split
    · exact .cons (counted_string _ (by decide) _) (.cons (counted_flag _ (by decide) _)
        (.cons (counted_number _ (by decide) _) .nil))
    · exact .cons (counted_flag _ (by decide) _) (.cons (counted_number _ (by decide) _) .nil)
  rw [sourceText, sourceValue, List.append_assoc, Source.documentLength, List.append_assoc]
  exact length_object (.cons (counted_string _ (by decide) _)
    (.cons (counted_number _ (by decide) _)
    (.cons (counted_number _ (by decide) _) (.cons (counted_string _ (by decide) _) hca))))

theorem length_destinationText {d : Destination} (hd : safeHost d = d.host) :
    (destinationText d).length = d.documentLength := by
  rw [destinationText, destinationValue, hd]
  exact length_object (.cons (counted_string _ (by decide) _)
    (.cons (counted_number _ (by decide) _)
    (.cons (counted_string _ (by decide) _) (.cons (counted_number _ (by decide) _)
      (.cons (counted_flag _ (by decide) _) (.cons (counted_number _ (by decide) _) .nil))))))

theorem length_bucketUpperMs : (Value.array bucketUpperMs).text.length = 61 := by
  rw [length_array]
  decide +kernel

def PlainHosts (s : Stream) : Prop := ∀ d ∈ s.destinations, safeHost d = d.host

theorem length_fanout (f : Fanout) :
    List.Forall₂ Counted (fanoutValue f) [("fanout_ms", membersLength
      [("p50", (decimal f.p50).length), ("p95", (decimal f.p95).length),
        ("p99", (decimal f.p99).length), ("max", (decimal f.max).length), ("bucket_upper_ms", 61),
        ("bucket_counts", arrayLength (f.buckets.map fun n => (decimal n).length))]),
      ("dispatched", (decimal f.dispatched).length)] := by
  have hbuckets : Counted (ascii "bucket_counts", .array (f.buckets.map .number))
      ("bucket_counts", arrayLength (f.buckets.map fun n => (decimal n).length)) :=
    counted_array (by decide) fun n _ => by rw [Value.text]
  have hupper : Counted (ascii "bucket_upper_ms", .array bucketUpperMs) ("bucket_upper_ms", 61) :=
    ⟨by decide, length_bucketUpperMs⟩
  have hcounts := length_object (.cons (counted_number "p50" (by decide) f.p50)
    (.cons (counted_number "p95" (by decide) f.p95)
      (.cons (counted_number "p99" (by decide) f.p99)
        (.cons (counted_number "max" (by decide) f.max)
          (.cons hupper (.cons hbuckets .nil))))))
  have hkey : (jsonString (ascii "fanout_ms")).length = "fanout_ms".length + 2 := by decide
  exact .cons ⟨hkey, hcounts⟩ (.cons (counted_number _ (by decide) _) .nil)

theorem length_streamText {s : Stream} (hs : PlainHosts s) :
    (streamText s).length = s.documentLength := by
  have hmedia : Counted (ascii "media", .string (ascii
      (if s.mediaMode = mediaProfile then "profile" else "source")))
      ("media", if s.mediaMode = mediaProfile then 9 else 8) := by
    have hkey : (jsonString (ascii "media")).length = "media".length + 2 := by decide
    refine ⟨hkey, ?_⟩
    rw [Value.text]
    split <;> decide
  have hsources : Counted (ascii "sources", .array (s.sources.map fun x => .object (sourceValue x)))
      ("sources", arrayLength (s.sources.map (·.documentLength))) :=
    counted_array (by decide) fun x _ => length_sourceText x
  have hdestinations : Counted
      (ascii "destinations", .array (s.destinations.map fun d => .object (destinationValue d)))
      ("destinations", arrayLength (s.destinations.map (·.documentLength))) :=
    counted_array (by decide) fun d hd => length_destinationText (hs d hd)
  rw [streamText, streamValue]
  exact length_object (.cons (counted_string _ (by decide) _)
    (.cons (counted_string _ (by decide) _)
    (.cons (counted_number _ (by decide) _) (.cons hmedia (.cons hsources (.cons hdestinations
      (length_fanout s.fanout)))))))

theorem length_documentText (h : ∀ s ∈ reg, PlainHosts s) :
    (documentText reg).length = documentLength reg := by
  have hstreams : Counted (ascii "streams", .array (reg.map fun s => .object (streamValue s)))
      ("streams", arrayLength (reg.map (·.documentLength))) :=
    counted_array (by decide) fun s hs => length_streamText (h s hs)
  rw [documentText, document]
  exact length_object (.cons hstreams (.cons (counted_number _ (by decide) _) .nil))

theorem grow_least {weight label : ℕ} {capacity : Option ℕ} (h : ∀ n ∈ capacity, bufSize ≤ n) :
    ∀ n ∈ grow weight capacity label, bufSize ≤ n := by
  intro n hn
  unfold grow at hn
  split at hn
  · exact absurd hn (Option.not_mem_none n)
  · rename_i c
    have hc := h c (Option.mem_some_self c)
    split at hn
    · exact absurd hn (Option.not_mem_none n)
    split at hn
    · exact absurd hn (Option.not_mem_none n)
    · have hgrown := Option.mem_some_iff.mp hn
      omega

theorem foldl_grow_least {α : Type*} {next : Option ℕ → α → Option ℕ}
    (hnext : ∀ c a, (∀ n ∈ c, bufSize ≤ n) → ∀ n ∈ next c a, bufSize ≤ n) (as : List α)
    {c : Option ℕ} (h : ∀ n ∈ c, bufSize ≤ n) : ∀ n ∈ as.foldl next c, bufSize ≤ n := by
  induction as generalizing c with
  | nil => exact h
  | cons a as ih => exact ih (hnext c a h)

theorem bufSize_le_responseCapacity (reg : Registry) : bufSize ≤ responseCapacity reg := by
  have hstream : ∀ (c : Option ℕ) (s : Stream), (∀ n ∈ c, bufSize ≤ n) →
      ∀ n ∈ streamCapacity c s, bufSize ≤ n := by
    intro c s hc
    rw [streamCapacity]
    exact foldl_grow_least (fun _ _ h => grow_least h) _
      (foldl_grow_least (fun _ _ h => grow_least h) _ (grow_least hc))
  have hfirst : ∀ n ∈ some bufSize, bufSize ≤ n := fun n hn => (Option.some.inj hn).le
  have hall := foldl_grow_least hstream reg hfirst
  rw [responseCapacity]
  cases hc : reg.foldl streamCapacity (some bufSize) with
  | none => decide
  | some n => exact hall n hc

theorem desiredGet_of_length (h : (documentText reg).length ≤ maxPayload) :
    desiredGet reg = some (documentText reg) := by
  have hroom := bufSize_le_responseCapacity reg
  have hless : maxPayload + 1 < bufSize := by decide
  rw [desiredGet]
  exact if_pos (by
    rw [documentText] at h
    omega)

theorem desiredGet_some {text : Str} (h : desiredGet reg = some text) :
    text = documentText reg := by
  rw [desiredGet] at h
  split at h
  · exact (Option.some.inj h).symm
  · cases h

end DesiredGraph
