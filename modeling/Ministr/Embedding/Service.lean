/-
# Embedding.Service — one worker that batches the requests of many clients

`EmbeddingService` owns the model on one thread.  Clients put requests into a
bounded queue; the worker takes the first, then more while its batch has room,
runs one forward over all their texts and cuts the answer into one reply per
request.  A send, a receive and a forward are one step each, so that every
grouping of the requests is a run.

`embeddingService_transparent` says what a client may rely on in every run: one
reply for each request, cut from the forward its request was part of, at the
place of its own texts, with vectors of the model's lengths and finite
components; an error of a forward reaches the requests of that forward and no
others.  With a pointwise model the batch is invisible.
-/

import Ministr.Embedding.Cache
import Ministr.Theory.Run

namespace Ministr.Embedding

open Ministr.Theory Ministr.Index

set_option autoImplicit false

/-! ## Vectors -/

/-- `f32::is_finite`, on the bit pattern: the exponent is not all ones. -/
def isFinite (x : UInt32) : Bool := x.toNat / 2 ^ 23 % 2 ^ 8 ≠ 255

/-- `x == 0.0`: either zero. -/
def isZero (x : UInt32) : Bool := x.toNat % 2 ^ 31 = 0

/-- The body of the loop of `sanitize_batch`. -/
def sanitize (v : F32Vec) : F32Vec :=
  let nonFinite := v.any fun x => !isFinite x
  let allZero := !v.isEmpty && v.all isZero
  if nonFinite || allZero then v.map fun _ => 0 else v

/-- `sanitize_batch`. -/
def sanitizeBatch (vectors : List F32Vec) : List F32Vec := vectors.map sanitize

/-! ## The source -/

/-- `EmbedReply`. -/
abbrev EmbedReply := Except IndexError (List F32Vec)

/-- The model: what its `n`-th forward answers for a list of texts. -/
abbrev Embedder := Nat → List String → EmbedReply

/-- `EmbeddingServiceConfig`; how long the worker waits is not modelled. -/
structure EmbeddingServiceConfig where
  maxBatch : Nat := 64
  queueCapacity : Nat := 256
  deriving DecidableEq, Repr

/-- `EmbedRequest`; the reply channel is known by number. -/
structure EmbedRequest where
  id : Nat
  texts : List String
  deriving DecidableEq, Repr

/-- The loop of `embed_with_retry`, with the attempts that are left and the number of
the next forward. -/
def retry (model : Embedder) (refs : List String) : Nat → Nat → List F32Vec → EmbedReply × Nat
  | 0, next, out => (.ok out, next)
  | left + 1, next, out =>
      if out.flatten.any fun x => !isFinite x then
        match model next refs with
        | .ok out => retry model refs left (next + 1) out
        | .error e => (.error e, next + 1)
      else (.ok out, next)

/-- `embed_with_retry`: the answer, and the number of the next forward. -/
def embedWithRetry (model : Embedder) (next : Nat) (refs : List String) : EmbedReply × Nat :=
  match model next refs with
  | .ok out => retry model refs 2 (next + 1) out
  | .error e => (.error e, next + 1)

/-- All the texts of a batch, in order. -/
def textsOf (batch : List EmbedRequest) : List String := batch.flatMap EmbedRequest.texts

/-- `vectors.by_ref().take(req.texts.len())`, request by request. -/
def scatterReplies : List EmbedRequest → List F32Vec → List (Nat × EmbedReply)
  | [], _ => []
  | req :: batch, vectors =>
      (req.id, .ok (sanitizeBatch (vectors.take req.texts.length))) ::
        scatterReplies batch (vectors.drop req.texts.length)

/-- The reason sent when the model returns a wrong number of vectors. -/
def countMismatch (vectors inputs : Nat) : IndexError :=
  .embeddingFailed
    ("embedder returned " ++ toString vectors ++ " vectors for " ++ toString inputs ++ " inputs")

/-- `process_batch`: the replies, and the number of the next forward. -/
def processBatch (model : Embedder) (next : Nat) (batch : List EmbedRequest) :
    List (Nat × EmbedReply) × Nat :=
  let refs := textsOf batch
  let (answer, next) := embedWithRetry model next refs
  match answer with
  | .ok vectors =>
      if vectors.length ≠ refs.length then
        (batch.map fun req => (req.id, .error (countMismatch vectors.length refs.length)), next)
      else (scatterReplies batch vectors, next)
  | .error e => (batch.map fun req => (req.id, .error (.embeddingFailed e.text)), next)

/-- A forward that has been run: its first attempt's number, and its requests. -/
structure Forward where
  first : Nat
  batch : List EmbedRequest
  deriving DecidableEq, Repr

/-- The queue, the batch the worker is gathering, and what has happened. -/
structure ServiceState where
  queue : List EmbedRequest
  batch : List EmbedRequest
  closed : Bool
  next : Nat
  sent : List EmbedRequest
  replies : List (Nat × EmbedReply)
  forwards : List Forward

def ServiceState.spawn : ServiceState where
  queue := []
  batch := []
  closed := false
  next := 0
  sent := []
  replies := []
  forwards := []

inductive ServiceEvent where
  /-- A client's `embed` goes through. -/
  | send (texts : List String)
  /-- The service is dropped; no client is inside `embed` then. -/
  | close
  /-- `blocking_recv`, or `try_recv` while the batch has room. -/
  | receive
  /-- `process_batch`, when the batch is full or the window is over. -/
  | forward
  deriving DecidableEq, Repr

/-- One step; an empty request is answered by `embed` itself. -/
def ServiceState.step (model : Embedder) (config : EmbeddingServiceConfig) (s : ServiceState) :
    ServiceEvent → Option ServiceState
  | .send texts =>
      let req : EmbedRequest := ⟨s.sent.length, texts⟩
      if s.closed then none
      else if texts.isEmpty then
        some { s with sent := s.sent ++ [req], replies := s.replies ++ [(req.id, .ok [])] }
      else if s.queue.length < max config.queueCapacity 1 then
        some { s with sent := s.sent ++ [req], queue := s.queue ++ [req] }
      else none
  | .close => if s.closed then none else some { s with closed := true }
  | .receive =>
      match s.queue with
      | [] => none
      | req :: queue =>
          if s.batch = [] ∨ s.batch.length < config.maxBatch then
            some { s with queue := queue, batch := s.batch ++ [req] }
          else none
  | .forward =>
      if s.batch = [] then none
      else
        let (replies, next) := processBatch model s.next s.batch
        some
          { s with
            batch := [], next := next, replies := s.replies ++ replies
            forwards := s.forwards ++ [⟨s.next, s.batch⟩] }

/-- The steps of the worker. -/
def ServiceEvent.ofWorker : ServiceEvent → Bool
  | receive | forward => true
  | send _ | close => false

/-! ## What a client may rely on -/

/-- What the model answered for a forward, after the retries. -/
def Forward.answer (model : Embedder) (f : Forward) : EmbedReply :=
  (embedWithRetry model f.first (textsOf f.batch)).1

/-- The reply to the request that stands behind `before` in the batch of a forward. -/
def Forward.reply (model : Embedder) (f : Forward) (before : List EmbedRequest)
    (req : EmbedRequest) : EmbedReply :=
  match f.answer model with
  | .error e => .error (.embeddingFailed e.text)
  | .ok vectors =>
      if vectors.length = (textsOf f.batch).length then
        .ok (sanitizeBatch ((vectors.drop (textsOf before).length).take req.texts.length))
      else .error (countMismatch vectors.length (textsOf f.batch).length)

/-- Where a reply comes from. -/
def ServiceState.Explains (model : Embedder) (s : ServiceState) (id : Nat) (reply : EmbedReply) :
    Prop :=
  (∃ req ∈ s.sent, req.id = id ∧ req.texts = [] ∧ reply = .ok []) ∨
  ∃ f ∈ s.forwards, ∃ before req after, f.batch = before ++ req :: after ∧ req ∈ s.sent ∧
    req.id = id ∧ reply = f.reply model before req

/-- How much the worker has to do. -/
def ServiceState.work (s : ServiceState) : Nat := 2 * s.queue.length + s.batch.length

/-- The service is a transparent batcher. -/
structure Transparent (model : Embedder) (config : EmbeddingServiceConfig) (s : ServiceState) :
    Prop where
  /-- A request is queued, in the batch, or answered, and it is that once. -/
  once : (s.replies.map Prod.fst ++ s.batch.map EmbedRequest.id ++
    s.queue.map EmbedRequest.id).Perm (s.sent.map EmbedRequest.id) ∧
    (s.sent.map EmbedRequest.id).Nodup
  /-- While there is something to answer, the worker can go on; -/
  goesOn : 0 < s.work → ∃ e t, e.ofWorker ∧ s.step model config e = some t
  /-- and each of its steps leaves less to do. -/
  gets : ∀ e t, e.ofWorker → s.step model config e = some t → t.work < s.work
  /-- A reply is the reply to its own request, from the forward that had it. -/
  own : ∀ id reply, (id, reply) ∈ s.replies → s.Explains model id reply
  /-- A forward answers all its requests. -/
  all : ∀ f ∈ s.forwards, ∀ before req after, f.batch = before ++ req :: after →
    (req.id, f.reply model before req) ∈ s.replies
  /-- A forward has at least one request and at most `max_batch`. -/
  sized : ∀ f ∈ s.forwards, 0 < f.batch.length ∧ f.batch.length ≤ max config.maxBatch 1

/-! ## Vectors that come out -/

theorem length_sanitize (v : F32Vec) : (sanitize v).length = v.length := by
  simp only [sanitize]
  split <;> simp

theorem sanitize_finite (v : F32Vec) : ∀ x ∈ sanitize v, isFinite x = true := by
  intro x mem
  simp only [sanitize] at mem
  split at mem
  · obtain ⟨_, -, rfl⟩ := List.mem_map.mp mem
    decide
  · rename_i sound
    simp only [Bool.or_eq_true, not_or, List.any_eq_true, not_exists, not_and,
      Bool.not_eq_true', Bool.not_eq_false] at sound
    exact sound.1 x mem

/-! ## One forward -/

section Forwards

variable {model : Embedder} {batch : List EmbedRequest} {id : Nat} {reply : EmbedReply}

theorem textsOf_cons (req : EmbedRequest) (batch : List EmbedRequest) :
    textsOf (req :: batch) = req.texts ++ textsOf batch := rfl

theorem map_fst_scatterReplies (batch : List EmbedRequest) (vectors : List F32Vec) :
    (scatterReplies batch vectors).map Prod.fst = batch.map EmbedRequest.id := by
  induction batch generalizing vectors with
  | nil => rfl
  | cons req batch ih => simp [scatterReplies, ih]

/-- The iterator has moved past the texts of the requests before. -/
theorem mem_scatterReplies {vectors : List F32Vec} :
    (id, reply) ∈ scatterReplies batch vectors ↔
      ∃ before req after, batch = before ++ req :: after ∧ req.id = id ∧
        reply = .ok (sanitizeBatch
          ((vectors.drop (textsOf before).length).take req.texts.length)) := by
  induction batch generalizing vectors with
  | nil => simp [scatterReplies]
  | cons first batch ih =>
      rw [scatterReplies, List.mem_cons, ih]
      constructor
      · rintro (here | ⟨before, req, after, rfl, rfl, rfl⟩)
        · cases here
          exact ⟨[], first, batch, rfl, rfl, by simp [textsOf]⟩
        · refine ⟨first :: before, req, after, rfl, rfl, ?_⟩
          rw [textsOf_cons, List.length_append, List.drop_drop]
      · rintro ⟨before, req, after, split, rfl, rfl⟩
        cases before with
        | nil =>
            cases split
            exact .inl (by simp [textsOf])
        | cons first' before =>
            cases split
            refine .inr ⟨before, req, after, rfl, rfl, ?_⟩
            rw [textsOf_cons, List.length_append, List.drop_drop]

theorem mem_map_reply {answer : EmbedRequest → EmbedReply} :
    (id, reply) ∈ batch.map (fun req => (req.id, answer req)) ↔
      ∃ before req after, batch = before ++ req :: after ∧ req.id = id ∧ reply = answer req := by
  rw [List.mem_map]
  constructor
  · rintro ⟨req, mem, same⟩
    cases same
    obtain ⟨before, after, split⟩ := List.append_of_mem mem
    exact ⟨before, req, after, split, rfl, rfl⟩
  · rintro ⟨before, req, after, rfl, rfl, rfl⟩
    exact ⟨req, by simp, rfl⟩

theorem map_fst_processBatch (model : Embedder) (next : Nat) (batch : List EmbedRequest) :
    (processBatch model next batch).1.map Prod.fst = batch.map EmbedRequest.id := by
  cases answered : (embedWithRetry model next (textsOf batch)).1 with
  | error e => simp [processBatch, answered]
  | ok vectors =>
      by_cases counted : vectors.length = (textsOf batch).length
      · simp [processBatch, answered, counted, map_fst_scatterReplies]
      · simp [processBatch, answered, counted]

/-- **The cut**: a forward answers each of its requests with its own part. -/
theorem mem_processBatch {next : Nat} :
    (id, reply) ∈ (processBatch model next batch).1 ↔
      ∃ before req after, batch = before ++ req :: after ∧ req.id = id ∧
        reply = Forward.reply model ⟨next, batch⟩ before req := by
  cases answered : (embedWithRetry model next (textsOf batch)).1 with
  | error e =>
      simp only [Forward.reply, Forward.answer, processBatch, answered]
      exact mem_map_reply
  | ok vectors =>
      by_cases counted : vectors.length = (textsOf batch).length
      · simp only [Forward.reply, Forward.answer, processBatch, answered, counted, ne_eq,
          not_true_eq_false, if_false, if_true]
        exact mem_scatterReplies
      · simp only [Forward.reply, Forward.answer, processBatch, answered, counted, ne_eq,
          not_false_eq_true, if_true, if_false]
        exact mem_map_reply

end Forwards

/-! ## One step -/

section Steps

variable {model : Embedder} {config : EmbeddingServiceConfig} {s t : ServiceState}
  {e : ServiceEvent}

/-- What one step can be. -/
inductive Goes (model : Embedder) (config : EmbeddingServiceConfig) (s : ServiceState) :
    ServiceEvent → ServiceState → Prop where
  | answered : Goes model config s (.send [])
      { s with
        sent := s.sent ++ [⟨s.sent.length, []⟩]
        replies := s.replies ++ [(s.sent.length, .ok [])] }
  | queued (texts : List String) : Goes model config s (.send texts)
      { s with
        sent := s.sent ++ [⟨s.sent.length, texts⟩]
        queue := s.queue ++ [⟨s.sent.length, texts⟩] }
  | closed : Goes model config s .close { s with closed := true }
  | received {req : EmbedRequest} {queue : List EmbedRequest} (waits : s.queue = req :: queue)
      (room : s.batch.length + 1 ≤ max config.maxBatch 1) :
      Goes model config s .receive { s with queue := queue, batch := s.batch ++ [req] }
  | ran (gathered : s.batch ≠ []) : Goes model config s .forward
      { s with
        batch := [], next := (processBatch model s.next s.batch).2
        replies := s.replies ++ (processBatch model s.next s.batch).1
        forwards := s.forwards ++ [⟨s.next, s.batch⟩] }

theorem step_goes (taken : s.step model config e = some t) : Goes model config s e t := by
  cases e with
  | send texts =>
      simp only [ServiceState.step] at taken
      split at taken
      · cases taken
      · split at taken
        · rename_i empty
          rw [List.isEmpty_iff.mp empty] at taken ⊢
          cases taken
          exact .answered
        · split at taken <;> cases taken
          exact .queued texts
  | close =>
      simp only [ServiceState.step] at taken
      split at taken <;> cases taken
      exact .closed
  | receive =>
      simp only [ServiceState.step] at taken
      split at taken
      · cases taken
      · rename_i req queue waits
        split at taken <;> cases taken
        rename_i room
        refine .received waits ?_
        rcases room with empty | room
        · simp [empty]
        · omega
  | forward =>
      simp only [ServiceState.step] at taken
      split at taken <;> cases taken
      rename_i gathered
      exact .ran gathered

/-- What the steps keep. -/
structure Kept (model : Embedder) (config : EmbeddingServiceConfig) (s : ServiceState) :
    Prop where
  once : (s.replies.map Prod.fst ++ s.batch.map EmbedRequest.id ++
    s.queue.map EmbedRequest.id).Perm (s.sent.map EmbedRequest.id)
  numbered : s.sent.map EmbedRequest.id = List.range s.sent.length
  known : ∀ req ∈ s.batch ++ s.queue, req ∈ s.sent
  room : s.batch.length ≤ max config.maxBatch 1
  own : ∀ id reply, (id, reply) ∈ s.replies → s.Explains model id reply
  all : ∀ f ∈ s.forwards, ∀ before req after, f.batch = before ++ req :: after →
    (req.id, f.reply model before req) ∈ s.replies
  sized : ∀ f ∈ s.forwards, 0 < f.batch.length ∧ f.batch.length ≤ max config.maxBatch 1

theorem ServiceState.Explains.mono {id : Nat} {reply : EmbedReply}
    (explains : s.Explains model id reply) (sent : ∀ req ∈ s.sent, req ∈ t.sent)
    (forwards : ∀ f ∈ s.forwards, f ∈ t.forwards) : t.Explains model id reply := by
  rcases explains with ⟨req, mem, rest⟩ | ⟨f, mem, before, req, after, split, known, rest⟩
  · exact .inl ⟨req, sent req mem, rest⟩
  · exact .inr ⟨f, forwards f mem, before, req, after, split, sent req known, rest⟩

theorem kept_spawn : Kept model config .spawn where
  once := .refl _
  numbered := rfl
  known := nofun
  room := Nat.zero_le _
  own := nofun
  all := nofun
  sized := nofun

theorem numbered_append {sent : List EmbedRequest}
    (numbered : sent.map EmbedRequest.id = List.range sent.length) {req : EmbedRequest}
    (next : req.id = sent.length) :
    (sent ++ [req]).map EmbedRequest.id = List.range (sent ++ [req]).length := by
  rw [List.map_append, numbered, List.length_append, List.length_singleton, List.range_succ,
    List.map_singleton, next]

theorem Kept.answered (kept : Kept model config s) :
    Kept model config
      { s with
        sent := s.sent ++ [⟨s.sent.length, []⟩]
        replies := s.replies ++ [(s.sent.length, .ok [])] } where
  once := by
    have next := kept.once.append_right [s.sent.length]
    rw [List.append_assoc, List.append_assoc, ← List.append_assoc (s.batch.map _)] at next
    rw [List.map_append, List.map_append, List.append_assoc, List.append_assoc]
    exact (List.Perm.append_left _ List.perm_append_comm).trans next
  numbered := numbered_append kept.numbered rfl
  known := fun req mem => List.mem_append_left _ (kept.known req mem)
  room := kept.room
  own := by
    intro id reply mem
    rcases List.mem_append.mp mem with old | new
    · exact (kept.own id reply old).mono (fun req mem => List.mem_append_left _ mem)
        fun f mem => mem
    · cases List.mem_singleton.mp new
      exact .inl ⟨⟨s.sent.length, []⟩, by simp, rfl, rfl, rfl⟩
  all := fun f mem before req after split =>
    List.mem_append_left _ (kept.all f mem before req after split)
  sized := kept.sized

theorem Kept.queued (kept : Kept model config s) (texts : List String) :
    Kept model config
      { s with
        sent := s.sent ++ [⟨s.sent.length, texts⟩]
        queue := s.queue ++ [⟨s.sent.length, texts⟩] } where
  once := by
    have := kept.once.append_right [s.sent.length]
    rw [List.map_append, List.map_append, ← List.append_assoc]
    exact this
  numbered := numbered_append kept.numbered rfl
  known := by
    intro req mem
    rw [← List.append_assoc] at mem
    rcases List.mem_append.mp mem with old | new
    · exact List.mem_append_left _ (kept.known req old)
    · exact List.mem_append_right _ new
  room := kept.room
  own := fun id reply mem => (kept.own id reply mem).mono
    (fun req mem => List.mem_append_left _ mem) fun f mem => mem
  all := kept.all
  sized := kept.sized

theorem Kept.ran (kept : Kept model config s) (gathered : s.batch ≠ []) :
    Kept model config
      { s with
        batch := [], next := (processBatch model s.next s.batch).2
        replies := s.replies ++ (processBatch model s.next s.batch).1
        forwards := s.forwards ++ [⟨s.next, s.batch⟩] } where
  once := by
    rw [List.map_append, map_fst_processBatch, List.map_nil, List.append_nil]
    exact kept.once
  numbered := kept.numbered
  known := fun req mem => kept.known req (List.mem_append_right _ mem)
  room := Nat.zero_le _
  own := by
    intro id reply mem
    rcases List.mem_append.mp mem with old | new
    · exact (kept.own id reply old).mono (fun req mem => mem)
        fun f mem => List.mem_append_left _ mem
    · obtain ⟨before, req, after, split, same, rfl⟩ := mem_processBatch.mp new
      refine .inr ⟨⟨s.next, s.batch⟩, by simp, before, req, after, split, ?_, same, rfl⟩
      exact kept.known req (List.mem_append_left _ (by rw [split]; simp))
  all := by
    intro f mem before req after split
    rcases List.mem_append.mp mem with old | new
    · exact List.mem_append_left _ (kept.all f old before req after split)
    · cases List.mem_singleton.mp new
      exact List.mem_append_right _ (mem_processBatch.mpr ⟨before, req, after, split, rfl, rfl⟩)
  sized := by
    intro f mem
    rcases List.mem_append.mp mem with old | new
    · exact kept.sized f old
    · cases List.mem_singleton.mp new
      exact ⟨List.length_pos_iff.mpr gathered, kept.room⟩

theorem Kept.step (kept : Kept model config s) (taken : s.step model config e = some t) :
    Kept model config t := by
  cases step_goes taken with
  | answered => exact kept.answered
  | queued texts => exact kept.queued texts
  | closed => exact { kept with }
  | received waits room =>
      rename_i req queue
      have once := kept.once
      have known := kept.known
      rw [waits] at once known
      refine { kept with once := ?_, known := ?_, room := by simpa using room }
      · simpa using once
      · simpa using known
  | ran gathered => exact kept.ran gathered

/-! ## The worker's progress -/

theorem worker_goesOn (busy : 0 < s.work) :
    ∃ e t, e.ofWorker ∧ s.step model config e = some t := by
  by_cases gathered : s.batch = []
  · cases waits : s.queue with
    | nil => simp [ServiceState.work, gathered, waits] at busy
    | cons req queue =>
        exact ⟨.receive, _, rfl, by simp [ServiceState.step, waits, gathered]; rfl⟩
  · exact ⟨.forward, _, rfl, by simp [ServiceState.step, gathered]; rfl⟩

theorem worker_gets (worker : e.ofWorker) (taken : s.step model config e = some t) :
    t.work < s.work := by
  cases step_goes taken with
  | answered | queued | closed => cases worker
  | received waits room =>
      simp only [ServiceState.work, waits, List.length_cons, List.length_append, List.length_nil]
      omega
  | ran gathered =>
      have := List.length_pos_iff.mpr gathered
      simp only [ServiceState.work, List.length_nil]
      omega

theorem Kept.transparent (kept : Kept model config s) : Transparent model config s where
  once := ⟨kept.once, by rw [kept.numbered]; exact List.nodup_range⟩
  goesOn := worker_goesOn
  gets := fun _ _ => worker_gets
  own := kept.own
  all := kept.all
  sized := kept.sized

/-! ## What is in a reply -/

theorem retry_answer (refs : List String) {out : List F32Vec} {n : Nat}
    (answered : model n refs = .ok out) (left next : Nat) :
    ∃ n, (retry model refs left next out).1 = model n refs := by
  induction left generalizing next out n with
  | zero => exact ⟨n, answered.symm⟩
  | succ left ih =>
      simp only [retry]
      split
      · cases again : model next refs with
        | ok out => exact ih again (next + 1)
        | error e => exact ⟨next, again.symm⟩
      · exact ⟨n, answered.symm⟩

/-- The retries end with one of the model's own answers. -/
theorem embedWithRetry_answer (model : Embedder) (next : Nat) (refs : List String) :
    ∃ n, (embedWithRetry model next refs).1 = model n refs := by
  unfold embedWithRetry
  cases answered : model next refs with
  | ok out => exact retry_answer refs answered 2 (next + 1)
  | error e => exact ⟨next, answered.symm⟩

theorem Forward.reply_eq_ok {f : Forward} {before : List EmbedRequest} {req : EmbedRequest}
    {vectors : List F32Vec} (good : f.reply model before req = .ok vectors) :
    ∃ n out, model n (textsOf f.batch) = .ok out ∧ out.length = (textsOf f.batch).length ∧
      vectors = sanitizeBatch ((out.drop (textsOf before).length).take req.texts.length) := by
  obtain ⟨n, answer⟩ := embedWithRetry_answer model f.first (textsOf f.batch)
  unfold Forward.reply Forward.answer at good
  rw [answer] at good
  cases answered : model n (textsOf f.batch) with
  | error e =>
      rw [answered] at good
      cases good
  | ok out =>
      rw [answered] at good
      simp only at good
      split at good
      · rename_i counted
        cases good
        exact ⟨n, out, answered, counted, rfl⟩
      · cases good

/-- Every vector of a reply is a sanitized vector of the model. -/
theorem ServiceState.Explains.vector {id : Nat} {vectors : List F32Vec}
    (explains : s.Explains model id (.ok vectors)) {v : F32Vec} (mem : v ∈ vectors) :
    ∃ n texts out, model n texts = .ok out ∧ ∃ w ∈ out, v = sanitize w := by
  rcases explains with ⟨req, -, -, -, empty⟩ | ⟨f, -, before, req, after, -, -, -, good⟩
  · cases empty
    cases mem
  · obtain ⟨n, out, answered, -, rfl⟩ := Forward.reply_eq_ok good.symm
    obtain ⟨w, inside, rfl⟩ := List.mem_map.mp mem
    exact ⟨n, _, out, answered, w, List.mem_of_mem_drop (List.mem_of_mem_take inside), rfl⟩

/-- A pointwise model gives each request the vectors of its own texts. -/
theorem Forward.reply_pointwise {embed : String → F32Vec}
    (pointwise : ∀ n texts, model n texts = .ok (texts.map embed)) {f : Forward}
    {before after : List EmbedRequest} {req : EmbedRequest} (split : f.batch = before ++ req :: after) :
    f.reply model before req = .ok (sanitizeBatch (req.texts.map embed)) := by
  obtain ⟨n, answer⟩ := embedWithRetry_answer model f.first (textsOf f.batch)
  have slice : (((textsOf f.batch).map embed).drop (textsOf before).length).take req.texts.length =
      req.texts.map embed := by
    have texts : textsOf f.batch = textsOf before ++ (req.texts ++ textsOf after) := by
      rw [split]
      simp [textsOf]
    rw [texts, List.map_append, List.drop_left' (by simp), List.map_append,
      List.take_left' (by simp)]
  unfold Forward.reply Forward.answer
  rw [answer, pointwise]
  simp only [List.length_map, if_true, slice]

end Steps

/-- **The service is a transparent batcher.**  In every state that any run of sends,
receives and forwards reaches: each request is waiting or answered, once, and the worker
can always go on until all are answered; a reply is cut from the forward that had the
request, at the request's own texts; every vector has the length the model gave it and
finite components; and with a pointwise model a request is answered as if it had been
alone. -/
theorem embeddingService_transparent (model : Embedder) (config : EmbeddingServiceConfig)
    (events : List ServiceEvent) (s : ServiceState)
    (ran : exec (ServiceState.step model config) .spawn events = some s) :
    Transparent model config s ∧
    (∀ id vectors, (id, .ok vectors) ∈ s.replies → ∀ v ∈ vectors, ∀ x ∈ v, isFinite x = true) ∧
    (∀ dimension : Nat, (∀ n texts out, model n texts = .ok out → ∀ w ∈ out, w.length = dimension) →
      ∀ id vectors, (id, .ok vectors) ∈ s.replies → ∀ v ∈ vectors, v.length = dimension) ∧
    (∀ embed : String → F32Vec, (∀ n texts, model n texts = .ok (texts.map embed)) →
      ∀ req ∈ s.sent, ∀ reply, (req.id, reply) ∈ s.replies →
        reply = .ok (sanitizeBatch (req.texts.map embed))) := by
  have kept : Kept model config s :=
    (throughout_of_keeps (fun _ _ _ kept taken => Kept.step kept taken) events kept_spawn).last ran
  refine ⟨kept.transparent, ?_, ?_, ?_⟩
  · intro id vectors mem v inside x component
    obtain ⟨n, texts, out, -, w, -, rfl⟩ := (kept.own id _ mem).vector inside
    exact sanitize_finite w x component
  · intro dimension lengths id vectors mem v inside
    obtain ⟨n, texts, out, answered, w, listed, rfl⟩ := (kept.own id _ mem).vector inside
    rw [length_sanitize]
    exact lengths n texts out answered w listed
  · intro embed pointwise req known reply mem
    have nodup : (s.sent.map EmbedRequest.id).Nodup := by
      rw [kept.numbered]
      exact List.nodup_range
    rcases kept.own req.id reply mem with ⟨other, sent, same, empty, rfl⟩ |
      ⟨f, -, before, other, after, split, sent, same, rfl⟩
    · cases List.inj_on_of_nodup_map nodup sent known same
      rw [empty]
      rfl
    · cases List.inj_on_of_nodup_map nodup sent known same
      exact Forward.reply_pointwise pointwise split

/-- Two clients of a model that embeds a text as its length. -/
def lengthModel : Embedder := fun _ texts => .ok (texts.map fun text => [UInt32.ofNat text.length])

def twoClients : List ServiceEvent :=
  [.send ["a", "bcd"], .receive, .send ["ef"], .receive, .forward]

theorem embeddingService_transparent_twoClients :
    ∃ s, exec (ServiceState.step lengthModel {}) .spawn twoClients = some s ∧
      Transparent lengthModel {} s ∧ s.replies = [(0, .ok [[1], [3]]), (1, .ok [[2]])] :=
  ⟨_, rfl, (embeddingService_transparent lengthModel {} twoClients _ rfl).1, by decide⟩

end Ministr.Embedding
