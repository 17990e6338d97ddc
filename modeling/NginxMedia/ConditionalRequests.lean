import NginxMedia.DesiredGraph

/-! The two requests of `ngx_media_api_module.c` that may state the revision which the caller saw
last: DELETE and PATCH of a stream. -/
namespace ConditionalRequests

open ByteString MediaGraph SourceRequests
open ApiJson (Field jsonField parseString parseStringLoop escape utf8 valueEnd before trimmed space
  jsonFieldLoop)
open DesiredGraph (field readBody mediaField timeoutField)

inductive Reply where
  | failed (status : ℕ) (error : String)
  | stale (revision : ℕ)
  | deleted (present : Bool) (revision : ℕ)
  | patched (mediaMode revision : ℕ)
  deriving DecidableEq, Repr

def Reply.status : Reply → ℕ
  | .failed status _ => status
  | .stale _ => 409
  | .deleted _ _ => 200
  | .patched _ _ => 200

structure Served where
  reply : Reply
  registry : Registry
  sent : Option Op

def refuse (reg : Registry) (status : ℕ) (error : String) : Served :=
  ⟨.failed status error, reg, none⟩

def deleteOp (application name : Str) (incarnation revision : ℕ) : Op :=
  { streamOp application name (Stream.new incarnation) with
    kind := .streamDelete
    revision := revision
    failureTimeout := 0
    recoveryTimeout := 0
    mediaMode := 0 }

def graphStreamDelete (env : ApiEnv) (application name : Str) (incarnation revision : ℕ) :
    Option Op :=
  graphSend env (deleteOp application name incarnation revision)

def touch (env : ApiEnv) (st : Stream) : Stream :=
  { st with revision := revisionNext (env.graph.shared 0) st.revision }

def later (env : ApiEnv) : Env := { env.graph with shared := fun k => env.graph.shared (k + 1) }

def deleteFound (env : ApiEnv) (reg : Registry) (e : Entry) (st : Stream) : Served :=
  match graphStreamDelete env e.application e.name st.incarnation st.revision with
  | none => refuse reg 503 "graph_admission_failed"
  | some op =>
    match streamRemove (later env) (update reg e.handle fun _ => st) e.handle true with
    | (reg, .ok) => ⟨.deleted true st.revision, reg, some op⟩
    | (reg, _) => ⟨.failed 500 "stream_delete_failed", reg, some op⟩

def streamDelete (env : ApiEnv) (reg : Registry) (application name : Str)
    (argument : Option Str) : Served :=
  match registryStream reg application name with
  | none =>
    let revision := (argument.bind atoi).getD (revisionNext (env.graph.shared 0) 0)
    match graphStreamDelete env application name 0 revision with
    | none => refuse reg 503 "graph_admission_failed"
    | some op =>
      ⟨.deleted false revision,
        { reg with tombs := tombstoneAdd reg.tombs (ownerHash application name) revision },
        some op⟩
  | some e =>
    match argument.bind atoi with
    | none => deleteFound env reg e (touch env e.stream)
    | some stated =>
      if stated ≠ e.stream.revision then ⟨.stale e.stream.revision, reg, none⟩
      else deleteFound env reg e e.stream

def patchFields (env : ApiEnv) (st : Stream) (body : Str) : Except String Stream :=
  match mediaField env.transforms body with
  | .error error => .error error
  | .ok mode =>
    match timeoutField body "failure_timeout_ms" st.failureTimeout with
    | none => .error "bad_failure_timeout"
    | some (failureTimeout, failureSet) =>
      match timeoutField body "recovery_timeout_ms" st.recoveryTimeout with
      | none => .error "bad_recovery_timeout"
      | some (recoveryTimeout, recoverySet) =>
        let mediaMode := mode.getD st.mediaMode
        if failureSet = true ∨ recoverySet = true ∨ st.mediaMode ≠ mediaMode then
          .ok (touch env { st with mediaMode, failureTimeout, recoveryTimeout })
        else .ok st

def patchFound (env : ApiEnv) (reg : Registry) (e : Entry) (body : Str) : Served :=
  match patchFields env e.stream body with
  | .error error => refuse reg 400 error
  | .ok st =>
    match graphStreamSet env e.application e.name st with
    | none => refuse reg 503 "graph_admission_failed"
    | some op => ⟨.patched st.mediaMode st.revision, update reg e.handle fun _ => st, some op⟩

def streamPatch (env : ApiEnv) (reg : Registry) (application name content : Str) : Served :=
  match registryStream reg application name with
  | none => refuse reg 404 "no_stream"
  | some e =>
    match readBody content with
    | none => refuse reg 400 "body_too_large"
    | some body =>
      match (field body "revision").bind atoi with
      | none => patchFound env reg e body
      | some stated =>
        if stated ≠ e.stream.revision then ⟨.stale e.stream.revision, reg, none⟩
        else patchFound env reg e body

inductive Request where
  | delete (argument : Option Str)
  | patch (content : Str)
  deriving DecidableEq, Repr

def serve (env : ApiEnv) (reg : Registry) (application name : Str) : Request → Served
  | .delete argument => streamDelete env reg application name argument
  | .patch content => streamPatch env reg application name content

def memberLoop (key : Str) : ℕ → Str → Option Str
  | 0, _ => none
  | fuel + 1, text =>
    match text.dropWhile fun c => space c || c == 123 || c == 44 with
    | [] => none
    | c :: rest =>
      if c ≠ 34 then none
      else
        -- a byte of the text never stands for more than four
        match parseString (4 * rest.length) rest with
        | none => none
        | some (parsed, rest) =>
          match rest.dropWhile space with
          | [] => none
          | c :: rest =>
            if c ≠ 58 then none
            else
              let start := rest.dropWhile space
              match valueEnd start with
              | none => if parsed = key then some start else none
              | some next =>
                if parsed = key then some (before start next) else memberLoop key fuel next

def member (body : Str) (key : String) : Option Str := memberLoop (ascii key) body.length body

def shown (value : Str) : Option Str :=
  if value.head? = some 34 then (parseString (value.length - 2) (value.drop 1)).map Prod.fst
  else some (trimmed value)

def Request.states : Request → Option (Option Str)
  | .delete argument => argument.map some
  | .patch content => (member content "revision").map shown

def Request.reads : Request → Option ℕ
  | .delete argument => argument.bind atoi
  | .patch content => (field content "revision").bind atoi

def Request.Sound (env : ApiEnv) (e : Entry) : Request → Prop
  | .delete _ =>
    (graphStreamDelete env e.application e.name e.stream.incarnation e.stream.revision).isSome
  | .patch content =>
    (readBody content).isSome ∧ ∃ st, patchFields env e.stream content = .ok st ∧
      (graphStreamSet env e.application e.name st).isSome

def Kept (reg : Registry) (served : Served) : Prop := served.registry = reg ∧ served.sent = none

def Conditional (reg : Registry) (application name : Str) (request : Request) (served : Served) :
    Prop :=
  ∀ e, registryStream reg application name = some e →
    (∀ text, request.states = some text → text ≠ some (decimal e.stream.revision) →
      Kept reg served) ∧
    (400 ≤ served.reply.status → Kept reg served)

def Slips (env : ApiEnv) (reg : Registry) (application name : Str) (request : Request) : Prop :=
  ∃ e text, registryStream reg application name = some e ∧ request.states = some text ∧
    text ≠ some (decimal e.stream.revision) ∧
    (request.reads = none ∨ request.reads = some e.stream.revision) ∧ request.Sound env e

variable {env : ApiEnv} {reg : Registry} {e : Entry} {st : Stream} {application name : Str}

theorem found_mem (h : registryStream reg application name = some e) : e ∈ reg.entries :=
  List.mem_of_find?_eq_some h

theorem deleteFound_cases (he : e ∈ reg.entries) :
    deleteFound env reg e st = refuse reg 503 "graph_admission_failed" ∧
        graphStreamDelete env e.application e.name st.incarnation st.revision = none ∨
      ∃ left op, deleteFound env reg e st = ⟨.deleted true st.revision, left, some op⟩ ∧
        graphStreamDelete env e.application e.name st.incarnation st.revision = some op := by
  unfold deleteFound
  cases hsend : graphStreamDelete env e.application e.name st.incarnation st.revision with
  | none => exact Or.inl ⟨rfl, rfl⟩
  | some op =>
    refine Or.inr ?_
    have hlisted : { e with stream := st } ∈ (update reg e.handle fun _ => st).entries :=
      List.mem_map.mpr ⟨e, he, if_pos rfl⟩
    have hfind : ((update reg e.handle fun _ => st).entries.find?
        fun x => decide (x.handle = e.handle)).isSome := by
      rw [List.find?_isSome]
      exact ⟨_, hlisted, decide_eq_true rfl⟩
    obtain ⟨x, hx⟩ := Option.isSome_iff_exists.mp hfind
    unfold streamRemove
    rw [hx]
    exact ⟨_, op, rfl, rfl⟩

theorem graphSend_isSome (op : Op) :
    (graphSend env op).isSome = ((GraphWire.encode op env.allocs).isSome && env.journals) := by
  unfold graphSend
  cases GraphWire.encode op env.allocs <;> cases env.journals <;> simp

theorem graphStreamDelete_isSome (incarnation revision other : ℕ) :
    (graphStreamDelete env application name incarnation revision).isSome =
      (graphStreamDelete env application name incarnation other).isSome := by
  have hencode : (GraphWire.encode (deleteOp application name incarnation revision)
      env.allocs).isSome =
      (GraphWire.encode (deleteOp application name incarnation other) env.allocs).isSome := by
    unfold GraphWire.encode
    simp only [apply_ite Option.isSome, Option.isSome_none, Option.isSome_some]
    rfl
  rw [graphStreamDelete, graphStreamDelete, graphSend_isSome, graphSend_isSome, hencode]

theorem patchFound_cases (body : Str) :
    Kept reg (patchFound env reg e body) ∧ 400 ≤ (patchFound env reg e body).reply.status ∧
        (¬∃ st, patchFields env e.stream body = .ok st ∧
          (graphStreamSet env e.application e.name st).isSome) ∨
      (patchFound env reg e body).sent.isSome ∧ (patchFound env reg e body).reply.status = 200 ∧
        ∃ st, patchFields env e.stream body = .ok st ∧
          (graphStreamSet env e.application e.name st).isSome := by
  unfold patchFound
  cases hfields : patchFields env e.stream body with
  | error error =>
    refine Or.inl ⟨⟨rfl, rfl⟩, Nat.le_refl 400, ?_⟩
    rintro ⟨st, hst, -⟩
    cases hst
  | ok st =>
    dsimp only
    cases hsend : graphStreamSet env e.application e.name st with
    | none =>
      refine Or.inl ⟨⟨rfl, rfl⟩, Nat.le_of_ble_eq_true rfl, ?_⟩
      rintro ⟨st', hst', hsome⟩
      rw [← Except.ok.inj hst', hsend] at hsome
      cases hsome
    | some op => exact Or.inr ⟨rfl, rfl, st, rfl, by rw [hsend]; rfl⟩

theorem serve_cases (he : registryStream reg application name = some e) (request : Request) :
    (∃ n, request.reads = some n ∧ n ≠ e.stream.revision) ∧
        Kept reg (serve env reg application name request) ∨
      (request.reads = none ∨ request.reads = some e.stream.revision) ∧
        (Kept reg (serve env reg application name request) ∧ ¬request.Sound env e ∨
          (serve env reg application name request).sent.isSome ∧
            (serve env reg application name request).reply.status = 200 ∧
            request.Sound env e) := by
  cases request with
  | delete argument =>
    rw [serve, streamDelete, he, Request.reads, Request.Sound]
    dsimp only
    have hdone : ∀ st : Stream, st.incarnation = e.stream.incarnation →
        (Kept reg (deleteFound env reg e st) ∧ ¬(graphStreamDelete env e.application e.name
            e.stream.incarnation e.stream.revision).isSome ∨
          (deleteFound env reg e st).sent.isSome ∧
            (deleteFound env reg e st).reply.status = 200 ∧
            (graphStreamDelete env e.application e.name e.stream.incarnation
              e.stream.revision).isSome) := by
      intro st hst
      have hsame := @graphStreamDelete_isSome env e.application e.name e.stream.incarnation
        e.stream.revision st.revision
      rw [hsame, ← hst]
      rcases @deleteFound_cases env reg e st (found_mem he) with ⟨hdone, hnone⟩ |
        ⟨left, op, hdone, hsome⟩
      · rw [hdone, hnone]
        exact Or.inl ⟨⟨rfl, rfl⟩, Bool.noConfusion⟩
      · rw [hdone, hsome]
        exact Or.inr ⟨rfl, rfl, rfl⟩
    cases argument.bind atoi with
    | none => exact Or.inr ⟨Or.inl rfl, hdone _ rfl⟩
    | some n =>
      dsimp only
      by_cases hn : n ≠ e.stream.revision
      · rw [if_pos hn]
        exact Or.inl ⟨⟨n, rfl, hn⟩, rfl, rfl⟩
      · rw [if_neg hn, not_not.mp hn]
        exact Or.inr ⟨Or.inr rfl, hdone _ rfl⟩
  | patch content =>
    rw [serve, streamPatch, he, Request.reads, Request.Sound]
    dsimp only
    unfold readBody
    by_cases hlong : content.length > DesiredGraph.maxPayload
    · rw [if_pos hlong]
      have hkept : Kept reg (refuse reg 400 "body_too_large") := ⟨rfl, rfl⟩
      have hunsound : ∀ P : Prop, ¬((none : Option Str).isSome ∧ P) := fun _ h =>
        Bool.noConfusion h.1
      cases (field content "revision").bind atoi with
      | none => exact Or.inr ⟨Or.inl rfl, Or.inl ⟨hkept, hunsound _⟩⟩
      | some n =>
        by_cases hn : n = e.stream.revision
        · exact Or.inr ⟨Or.inr (congrArg some hn), Or.inl ⟨hkept, hunsound _⟩⟩
        · exact Or.inl ⟨⟨n, rfl, hn⟩, hkept⟩
    · rw [if_neg hlong]
      dsimp only
      have hdone : Kept reg (patchFound env reg e content) ∧
            ¬((some content).isSome ∧ ∃ st, patchFields env e.stream content = .ok st ∧
              (graphStreamSet env e.application e.name st).isSome) ∨
          (patchFound env reg e content).sent.isSome ∧
            (patchFound env reg e content).reply.status = 200 ∧
            ((some content).isSome ∧ ∃ st, patchFields env e.stream content = .ok st ∧
              (graphStreamSet env e.application e.name st).isSome) := by
        rcases @patchFound_cases env reg e content with ⟨hkept, -, hbad⟩ | ⟨hsent, hok, hgood⟩
        · exact Or.inl ⟨hkept, fun h => hbad h.2⟩
        · exact Or.inr ⟨hsent, hok, rfl, hgood⟩
      cases (field content "revision").bind atoi with
      | none => exact Or.inr ⟨Or.inl rfl, hdone⟩
      | some n =>
        dsimp only
        by_cases hn : n ≠ e.stream.revision
        · rw [if_pos hn]
          exact Or.inl ⟨⟨n, rfl, hn⟩, rfl, rfl⟩
        · rw [if_neg hn, not_not.mp hn]
          exact Or.inr ⟨Or.inr rfl, hdone⟩

/-- A request that states a revision is conditional on it exactly when it does not slip. -/
theorem conditional_iff (env : ApiEnv) (reg : Registry) (application name : Str)
    (request : Request) :
    Conditional reg application name request (serve env reg application name request) ↔
      ¬Slips env reg application name request := by
  constructor
  · rintro hkeeps ⟨e, text, he, hstates, hother, hreads, hsound⟩
    obtain ⟨-, hsent⟩ := (hkeeps e he).1 text hstates hother
    rcases @serve_cases env reg e application name he request with ⟨⟨n, hn, hne⟩, -⟩ |
      ⟨-, ⟨-, hunsound⟩ | ⟨hsome, -⟩⟩
    · rcases hreads with hnone | hsame
      · rw [hnone] at hn
        cases hn
      · rw [hsame] at hn
        exact hne (Option.some.inj hn).symm
    · exact hunsound hsound
    · rw [hsent] at hsome
      cases hsome
  · intro hslips e he
    rcases @serve_cases env reg e application name he request with ⟨-, hkept⟩ |
      ⟨hreads, ⟨hkept, -⟩ | ⟨-, hok, hsound⟩⟩
    · exact ⟨fun _ _ _ => hkept, fun _ => hkept⟩
    · exact ⟨fun _ _ _ => hkept, fun _ => hkept⟩
    · refine ⟨fun text hstates hother => ?_, fun hrefused => ?_⟩
      · exact absurd ⟨e, text, he, hstates, hother, hreads, hsound⟩ hslips
      · rw [hok] at hrefused
        exact absurd hrefused (by decide)

/-- A single worker with memory. -/
def alone : ApiEnv where
  graph := ⟨true, true, true, true, true, true, 1, fun _ => 0⟩
  master := []
  nonces := []
  available := true
  transforms := false
  claims := true
  allocs := true
  journals := true

def liveNews : Registry :=
  ⟨[⟨0, ascii "live", ascii "news", { Stream.new 1 with revision := 5 }⟩], 1, tombstoneInit, 1⟩

def hugeRevision : Request := .delete (some (ascii "99999999999999999999"))

/-- A revision that no integer holds deletes the stream. -/
theorem huge_revision_deletes :
    ¬∀ env reg application name request,
      Conditional reg application name request (serve env reg application name request) := by
  intro h
  have hfound : registryStream liveNews (ascii "live") (ascii "news") =
      some ⟨0, ascii "live", ascii "news", { Stream.new 1 with revision := 5 }⟩ := by
    decide +kernel
  have hsent : (serve alone liveNews (ascii "live") (ascii "news") hugeRevision).sent.isSome := by
    decide +kernel
  have hother : (some (ascii "99999999999999999999") : Option Str) ≠ some (decimal 5) := by
    decide +kernel
  obtain ⟨-, hnone⟩ := (h alone liveNews (ascii "live") (ascii "news") hugeRevision _ hfound).1
    _ rfl hother
  rw [hnone] at hsent
  cases hsent

end ConditionalRequests
