/-
# Ingestion.PipelineSound — documents recorded as indexed have their vectors

The hash row of a file is written in the middle of its work: before the symbols are
extracted and before anything is embedded.  From then on the file counts as indexed, and
someone owes its vectors: first the worker, then the sink and the consumer, and in the end
the rollback, which knows the documents that reached the sink.

`Settled` says that a document with a current hash row has its vectors unless they are
owed; `Live` adds where the owed pairs are while a run lasts.  Two steps lose a debt: a
symbol extraction that fails, since the worker is dropped and its hash row stays, and a
failed send, since the workers behind the sink are dropped where they are.  In every run
that takes neither with something owed, nothing is owed at the end.
-/
import Ministr.Ingestion.WorkerFrame

namespace Ministr.Ingestion

open Ministr.Theory Ministr.Content Ministr.Index

set_option autoImplicit false

section Tables

variable {α K : Type} {c : RunConfig α K} {w w' : Workspace α K} {owed owed' : String → Prop}

/-- Every vector of a path is there. -/
def RunConfig.VectorsAt (c : RunConfig α K) (w : Workspace α K) (path : String) : Prop :=
  ∀ pair ∈ c.documentPairs path, pair.1.asStr ∈ w.vectors.store.rows

/-- A document with a current hash row is the one on disk, and has its vectors unless they
are owed. -/
structure Settled (c : RunConfig α K) (owed : String → Prop) (w : Workspace α K) : Prop where
  placed : Placed c w.store
  stored : ∀ path ∈ w.store.documents, c.HashCurrent w.store path →
    ∃ doc, c.treeOf path = some doc ∧ TreeStored w.store path doc
  vectors : ∀ path ∈ w.store.documents, c.HashCurrent w.store path →
    c.VectorsAt w path ∨ owed path

theorem settled_new (index : HnswInner String α) (hybrid : Bool) :
    Settled c owed (Workspace.new index hybrid) where
  placed := by constructor <;> simp [Workspace.new, ContentStore.empty]
  stored := fun path mem => absurd mem (AList.notMem_empty path)
  vectors := fun path mem => absurd mem (AList.notMem_empty path)

theorem Settled.indexed (settled : Settled c (fun _ => False) w) : c.Indexed w :=
  fun path mem current => (settled.vectors path mem current).resolve_right id

theorem Settled.imp (settled : Settled c owed w) (weaker : ∀ path, owed path → owed' path) :
    Settled c owed' w :=
  ⟨settled.placed, settled.stored, fun path mem current =>
    (settled.vectors path mem current).imp_right (weaker path)⟩

/-- More vectors, with the tables as they were. -/
theorem Settled.grow (settled : Settled c owed w) (store : w'.store = w.store)
    (rows : ∀ id ∈ w.vectors.store.rows, id ∈ w'.vectors.store.rows) : Settled c owed w' := by
  refine ⟨store ▸ settled.placed, store ▸ settled.stored, fun path mem current => ?_⟩
  rw [store] at mem current
  exact (settled.vectors path mem current).imp_left fun held pair listed =>
    rows _ (held pair listed)

/-- The tables after work on one path, when that path is accounted for. -/
theorem Settled.frame (settled : Settled c owed w) (apart : c.SymbolsApart) {path : String}
    (frame : Frame c path w.store w'.store)
    (spares : ∀ v : VectorId, v ∉ documentVectorIds w.store path →
      v.asStr ∈ w.vectors.store.rows → v.asStr ∈ w'.vectors.store.rows)
    (others : ∀ d, d ≠ path → owed d → owed' d)
    (own : path ∈ w'.store.documents → c.HashCurrent w'.store path →
      (∃ doc, c.treeOf path = some doc ∧ TreeStored w'.store path doc) ∧
        (c.VectorsAt w' path ∨ owed' path)) :
    Settled c owed' w' := by
  refine ⟨frame.placed apart settled.placed, ?_, ?_⟩
  · intro d mem current
    by_cases here : d = path
    · subst here
      exact (own mem current).1
    · rw [frame.mem_documents here] at mem
      rw [frame.hashCurrent here] at current
      obtain ⟨doc, tree, stored⟩ := settled.stored d mem current
      exact ⟨doc, tree, frame.treeStored here stored⟩
  · intro d mem current
    by_cases here : d = path
    · subst here
      exact (own mem current).2
    · rw [frame.mem_documents here] at mem
      rw [frame.hashCurrent here] at current
      obtain ⟨doc, tree, stored⟩ := settled.stored d mem current
      refine (settled.vectors d mem current).imp (fun held pair listed => ?_) (others d here)
      exact spares _ (settled.placed.not_listed tree stored here listed) (held pair listed)

/-- A document that is rolled back is no longer owed anything. -/
theorem Settled.removeDocument {docs : List String} {path : String} (apart : c.SymbolsApart)
    (settled : Settled c (· ∈ path :: docs) w) :
    Settled c (· ∈ docs) (w.removeDocument path path) := by
  refine settled.frame apart (frame_teardown.trans frame_deleteFileHash)
    (fun v => deleteDocumentVectors_spares w path) ?_ ?_
  · intro d other listed
    exact (List.mem_cons.mp listed).resolve_left other
  · intro mem
    exact absurd mem not_mem_teardown

theorem Settled.rollback {docs : List String} (apart : c.SymbolsApart)
    (settled : Settled c (· ∈ docs) w) :
    Settled c (fun _ => False) (rollbackPartialDocuments w docs) := by
  induction docs generalizing w with
  | nil => exact settled.imp fun path mem => List.not_mem_nil mem
  | cons path docs ih => exact ih (settled.removeDocument apart)

end Tables

/-! ## The run -/

namespace RunState

variable {α K : Type} {c : RunConfig α K} {s : RunState α K}

/-- The pairs on their way from the sink to the embedder. -/
def inFlight (s : RunState α K) : EmbeddingPairs :=
  s.sending.getD [] ++ s.channel.flatten ++ s.consumer.pending

/-- A worker behind the hash row, or the rollback list, answers for the path. -/
def Owed (s : RunState α K) (path : String) : Prop :=
  (∃ phase, s.workers.lookup path = some phase ∧ phase.hashWritten = true) ∨
    path ∈ s.indexedDocIds

/-- The consumer has seen the end of the channel. -/
def closed : Consumer → Bool
  | .embedding _ _ last => last
  | .finished => true
  | _ => false

/-- What holds in every state of a run that has not returned. -/
structure Live (c : RunConfig α K) (s : RunState α K) : Prop where
  running : s.outcome = none
  settled : Settled c s.Owed s.work
  workers : ∀ path phase, s.workers.lookup path = some phase →
    WorkerOk c s.work.store path phase
  recorded : ∀ path ∈ s.indexedDocIds,
    path ∈ s.work.store.documents ∧ c.HashCurrent s.work.store path
  carried : s.consumer ≠ .failed → ∀ path ∈ s.indexedDocIds, ∀ pair ∈ c.documentPairs path,
    pair.1.asStr ∈ s.work.vectors.store.rows ∨ pair ∈ s.inFlight
  ended : s.producerEnded = true → s.workers = ∅ ∧ s.sending = none
  drained : closed s.consumer = true → s.producerEnded = true ∧ s.channel = []

theorem live_start {w : Workspace α K} (settled : Settled c (fun _ => False) w)
    (files : List String) : Live c (start w files) where
  running := rfl
  settled := settled.imp fun _ => False.elim
  workers := fun path phase found => by cases found
  recorded := fun path mem => absurd mem List.not_mem_nil
  carried := fun _ path mem => absurd mem List.not_mem_nil
  ended := nofun
  drained := nofun

/-- A worker step. -/
theorem Live.work (live : Live c s) (apart : c.SymbolsApart) {path : String}
    {phase phase' : Phase} {w' : Workspace α K} (found : s.workers.lookup path = some phase)
    (moves : Moves c path s.work w' phase phase') :
    Live c { s with work := w', workers := s.workers.insert path phase' } := by
  have owedElsewhere : ∀ d, d ≠ path → s.Owed d →
      Owed { s with work := w', workers := s.workers.insert path phase' } d := by
    rintro d other (⟨phase, held, done⟩ | listed)
    · refine .inl ⟨phase, ?_, done⟩
      rw [Rows.lookup_insert_if, if_neg other]
      exact held
    · exact .inr listed
  have owedHere : phase'.hashWritten = true →
      Owed { s with work := w', workers := s.workers.insert path phase' } path := by
    intro done
    refine .inl ⟨phase', ?_, done⟩
    rw [Rows.lookup_insert_if, if_pos rfl]
  refine ⟨live.running, ?_, ?_, ?_, ?_, ?_, live.drained⟩
  · refine live.settled.frame apart moves.frame moves.spares owedElsewhere fun mem current => ?_
    rcases moves.fresh current with before | done
    · have keeps := moves.keeps before
      rw [keeps.document] at mem
      obtain ⟨doc, tree, stored⟩ := live.settled.stored path mem before
      refine ⟨⟨doc, tree, keeps.stored doc stored⟩, ?_⟩
      rcases live.settled.vectors path mem before with held | ⟨phase₀, at₀, done⟩ | listed
      · exact .inl fun pair listed => keeps.rows _ (held pair listed)
      · rw [found, Option.some.injEq] at at₀
        subst at₀
        rcases moves.written done with done | none
        · exact .inr (owedHere done)
        · exact .inl fun pair listed => by rw [none] at listed; cases listed
      · exact .inr (.inr listed)
    · refine ⟨?_, .inr (owedHere done)⟩
      have ok := moves.ok
      cases phase' with
      | hashed doc => exact ⟨doc, ok.1, ok.2.2⟩
      | extracted pairs => exact ok.2.2
      | pulled | cleared doc hash | inserted doc hash | skipped | failed => cases done
  · intro d phase₀ held
    rw [Rows.lookup_insert_if] at held
    split at held
    · rename_i here
      cases held
      exact here ▸ moves.ok
    · rename_i other
      exact moves.frame.workerOk other (live.workers d phase₀ held)
  · intro d listed
    obtain ⟨mem, current⟩ := live.recorded d listed
    by_cases here : d = path
    · subst here
      exact ⟨(moves.keeps current).document.mpr mem, (moves.keeps current).current⟩
    · exact ⟨(moves.frame.mem_documents here).mpr mem, (moves.frame.hashCurrent here).mpr current⟩
  · intro running d listed pair inDoc
    obtain ⟨mem, current⟩ := live.recorded d listed
    refine (live.carried running d listed pair inDoc).imp_left fun held => ?_
    by_cases here : d = path
    · subst here
      exact (moves.keeps current).rows _ held
    · obtain ⟨doc, tree, stored⟩ := live.settled.stored d mem current
      exact moves.spares _ (live.settled.placed.not_listed tree stored here inDoc) held
  · intro ended
    rw [(live.ended ended).1] at found
    cases found

/-- No debt is lost when every worker behind its hash row is kept, is recorded, or has
nothing to embed. -/
theorem Live.resettle (live : Live c s) {t : RunState α K} (work : t.work = s.work)
    (listed : ∀ path ∈ s.indexedDocIds, path ∈ t.indexedDocIds)
    (kept : ∀ path phase, s.workers.lookup path = some phase → phase.hashWritten = true →
      t.workers.lookup path = some phase ∨ path ∈ t.indexedDocIds ∨ c.documentPairs path = []) :
    Settled c t.Owed t.work := by
  rw [work]
  refine ⟨live.settled.placed, live.settled.stored, fun path mem current => ?_⟩
  rcases live.settled.vectors path mem current with held | ⟨phase, found, done⟩ | recorded
  · exact .inl held
  · rcases kept path phase found done with found | recorded | none
    · exact .inr (.inl ⟨phase, found, done⟩)
    · exact .inr (.inr recorded)
    · exact .inl fun pair listed => by rw [none] at listed; cases listed
  · exact .inr (.inr (listed path recorded))

theorem Live.pull (live : Live c s) {path : String} {rest : List String}
    (running : s.producerEnded = false) (free : path ∉ s.workers) :
    Live c { s with queue := rest, workers := s.workers.insert path .pulled } := by
  have other : ∀ d phase, s.workers.lookup d = some phase → d ≠ path := by
    rintro d phase found rfl
    exact free ((Rows.mem_iff_lookup _ _).mpr ⟨phase, found⟩)
  refine { live with settled := live.resettle rfl (fun _ mem => mem) ?_, workers := ?_, ended := ?_ }
  · intro d phase found _
    left
    rw [Rows.lookup_insert_if, if_neg (other d phase found)]
    exact found
  · intro d phase found
    rw [Rows.lookup_insert_if] at found
    split at found
    · cases found
      trivial
    · exact live.workers d phase found
  · intro ended
    rw [running] at ended
    cases ended

theorem Live.drain (live : Live c s) {path : String} {phase : Phase}
    (found : s.workers.lookup path = some phase) (idle : phase.hashWritten = false) :
    Live c { s with workers := s.workers.erase path } := by
  refine { live with settled := live.resettle rfl (fun _ mem => mem) ?_, workers := ?_, ended := ?_ }
  · intro d phase' held done
    left
    rw [Rows.lookup_erase_if, if_neg]
    · exact held
    rintro rfl
    rw [found, Option.some.injEq] at held
    rw [← held, idle] at done
    cases done
  · intro d phase' held
    rw [Rows.lookup_erase_if] at held
    split at held
    · cases held
    · exact live.workers d phase' held
  · intro ended
    rw [(live.ended ended).1] at found
    cases found

theorem Live.sink (live : Live c s) {path : String} {pairs : EmbeddingPairs}
    (found : s.workers.lookup path = some (.extracted pairs)) (free : s.sending = none) :
    Live c
      { s with
        workers := s.workers.erase path
        indexedDocIds := s.indexedDocIds ++ [path]
        sending := if pairs.isEmpty then none else some pairs } := by
  obtain ⟨same, current, doc, tree, stored⟩ := live.workers path _ found
  have sent : ∀ pair ∈ pairs, pair ∈ (if pairs.isEmpty then none else some pairs).getD [] := by
    intro pair mem
    cases pairs with
    | nil => cases mem
    | cons first rest => exact mem
  refine
    { live with
      settled := live.resettle rfl (fun _ mem => List.mem_append_left _ mem) ?_
      workers := ?_
      recorded := ?_
      carried := ?_
      ended := ?_ }
  · intro d phase held _
    by_cases here : d = path
    · exact .inr (.inl (List.mem_append_right _ (List.mem_singleton.mpr here)))
    · left
      rw [Rows.lookup_erase_if, if_neg here]
      exact held
  · intro d phase held
    rw [Rows.lookup_erase_if] at held
    split at held
    · cases held
    · exact live.workers d phase held
  · intro d mem
    rcases List.mem_append.mp mem with mem | mem
    · exact live.recorded d mem
    · rw [List.mem_singleton.mp mem]
      exact ⟨stored.document, current⟩
  · intro running d mem pair inDoc
    rcases List.mem_append.mp mem with mem | mem
    · refine (live.carried running d mem pair inDoc).imp_right fun moving => ?_
      simp only [inFlight, free, Option.getD_none, List.nil_append, List.append_assoc] at moving ⊢
      exact List.mem_append_right _ moving
    · rw [List.mem_singleton.mp mem, ← same] at inDoc
      simp only [inFlight, List.append_assoc]
      exact .inr (List.mem_append_left _ (sent pair inDoc))
  · intro ended
    rw [(live.ended ended).1] at found
    cases found

theorem Live.send (live : Live c s) {pairs : EmbeddingPairs} (ready : s.sending = some pairs) :
    Live c { s with sending := none, channel := s.channel ++ [pairs] } := by
  refine { live with carried := ?_, ended := ?_, drained := ?_ }
  · intro running d mem pair inDoc
    refine (live.carried running d mem pair inDoc).imp_right fun moving => ?_
    simp only [inFlight, ready, Option.getD_some, Option.getD_none, List.flatten_append,
      List.flatten_singleton, List.nil_append, List.mem_append] at moving ⊢
    tauto
  · intro ended
    exact ⟨(live.ended ended).1, rfl⟩
  · intro ended
    have none := (live.ended (live.drained ended).1).2
    rw [ready] at none
    cases none

theorem Live.sendFails (live : Live c s) (failed : s.consumer = .failed)
    (harmless : ∀ path phase, s.workers.lookup path = some phase → phase.hashWritten = true →
      c.documentPairs path = []) :
    Live c
      { s with
        sending := none
        workers := ∅
        queue := []
        producerEnded := true
        wasCancelled := s.cancelled } := by
  refine
    { live with
      settled := live.resettle rfl (fun _ mem => mem) ?_
      workers := fun path phase found => by cases found
      carried := fun running => absurd failed running
      ended := fun _ => ⟨rfl, rfl⟩
      drained := fun ended => ⟨rfl, (live.drained ended).2⟩ }
  intro path phase found done
  exact .inr (.inr (harmless path phase found done))

/-- A step of the consumer: the tables stay, vectors are added, and a pair that leaves its
hands is a vector by then. -/
theorem Live.consume (live : Live c s) {work : Workspace α K} {channel : List EmbeddingPairs}
    {consumer : Consumer} {cancelled : Bool} (store : work.store = s.work.store)
    (rows : ∀ id ∈ s.work.vectors.store.rows, id ∈ work.vectors.store.rows)
    (carried : consumer ≠ .failed → s.consumer ≠ .failed ∧
      ∀ pair ∈ s.channel.flatten ++ s.consumer.pending,
        pair.1.asStr ∈ work.vectors.store.rows ∨ pair ∈ channel.flatten ++ consumer.pending)
    (drained : closed consumer = true → s.producerEnded = true ∧ channel = []) :
    Live c { s with work, channel, consumer, cancelled } := by
  refine
    { live with
      settled := live.settled.grow store rows
      workers := fun path phase found => ?_
      recorded := fun path mem => ?_
      carried := ?_
      drained := drained }
  · show WorkerOk c work.store path phase
    rw [store]
    exact live.workers path phase found
  · show path ∈ work.store.documents ∧ c.HashCurrent work.store path
    rw [store]
    exact live.recorded path mem
  · intro running path mem pair inDoc
    obtain ⟨before, moves⟩ := carried running
    rcases live.carried before path mem pair inDoc with held | moving
    · exact .inl (rows _ held)
    · simp only [inFlight, List.append_assoc] at moving ⊢
      rcases List.mem_append.mp moving with waiting | moving
      · exact .inr (List.mem_append_left _ waiting)
      · exact (moves pair moving).imp_right (List.mem_append_right _)

variable [Component α]

theorem pending_startBatch (buffer : EmbeddingPairs) (last : Bool) :
    (startBatch buffer last).pending = buffer :=
  flatten_chunks (by decide) buffer

omit [Component α] in
/-- The condition a step has to meet: where a symbol extraction fails, the file has nothing to
embed, and where a send fails, the same is true of every file in flight behind its hash
row. -/
def Admitted (c : RunConfig α K) (s : RunState α K) : RunEvent α K → Prop
  | .producer (.work path (.extractFails _)) => c.documentPairs path = []
  | .producer .sendFails => ∀ path phase, s.workers.lookup path = some phase →
      phase.hashWritten = true → c.documentPairs path = []
  | _ => True

omit [Component α] in
theorem Live.producerStep (live : Live c s) (apart : c.SymbolsApart) {event : ProducerEvent}
    {t : RunState α K} (admitted : Admitted c s (.producer event))
    (taken : s.producerStep c event = some t) : Live c t := by
  cases event with
  | cancel =>
      cases taken
      exact { live with }
  | haltQueue =>
      obtain ⟨-, rfl⟩ := Option.ite_none_right_eq_some.mp taken |>.imp id Option.some.inj
      exact { live with }
  | pull =>
      simp only [RunState.producerStep] at taken
      split at taken
      · cases taken
      · obtain ⟨⟨-, running, free, -⟩, rfl⟩ :=
          Option.ite_none_right_eq_some.mp taken |>.imp id Option.some.inj
        exact live.pull running free
  | work path action =>
      obtain ⟨phase, found, rest⟩ := Option.bind_eq_some_iff.mp taken
      obtain ⟨⟨w', phase'⟩, stepped, rfl⟩ := Option.map_eq_some_iff.mp rest
      refine live.work apart found
        (workerStep_moves live.settled.placed (live.workers path phase found) ?_ stepped)
      rintro written rfl
      exact admitted
  | drain path =>
      obtain ⟨⟨-, idle⟩, rfl⟩ :=
        Option.ite_none_right_eq_some.mp taken |>.imp id Option.some.inj
      rcases idle with found | found
      · exact live.drain found rfl
      · exact live.drain found rfl
  | sink path =>
      simp only [RunState.producerStep] at taken
      split at taken
      · rename_i free found
        cases taken
        exact live.sink found free
      · cases taken
  | send =>
      simp only [RunState.producerStep] at taken
      split at taken
      · rename_i ready
        obtain ⟨-, rfl⟩ := Option.ite_none_right_eq_some.mp taken |>.imp id Option.some.inj
        exact live.send ready
      · cases taken
  | sendFails =>
      obtain ⟨⟨-, failed⟩, rfl⟩ :=
        Option.ite_none_right_eq_some.mp taken |>.imp id Option.some.inj
      exact live.sendFails failed admitted
  | endStream =>
      obtain ⟨⟨-, -, idle, sent⟩, rfl⟩ :=
        Option.ite_none_right_eq_some.mp taken |>.imp id Option.some.inj
      exact
        { live with
          ended := fun _ => ⟨Rows.eq_empty_of_keys idle, sent⟩
          drained := fun ended => ⟨rfl, (live.drained ended).2⟩ }

theorem Live.consumerStep (live : Live c s) {event : ConsumerEvent α K} {t : RunState α K}
    (taken : s.consumerStep event = some t) : Live c t := by
  cases event with
  | recv =>
      simp only [RunState.consumerStep] at taken
      split at taken
      · rename_i buffer pairs rest waiting channel
        cases taken
        refine live.consume rfl (fun _ mem => mem) (fun _ => ?_) fun ended => ?_
        · rw [waiting, channel]
          refine ⟨nofun, fun pair mem => .inr ?_⟩
          have held : pair ∈ rest.flatten ++ (buffer ++ pairs) := by
            simp only [List.flatten_cons, Consumer.pending, List.mem_append] at mem ⊢
            tauto
          split
          · rw [pending_startBatch]
            exact held
          · exact held
        · split at ended <;> cases ended
      · cases taken
  | embedChunk vectors =>
      simp only [RunState.consumerStep] at taken
      split at taken
      · rename_i chunk rest batch last embedding
        obtain ⟨work, stored, rfl⟩ := Option.map_eq_some_iff.mp taken
        obtain ⟨store, rows, held⟩ := storeChunk_spec stored
        refine live.consume store rows (fun _ => ?_) fun ended => ?_
        · rw [embedding]
          refine ⟨nofun, fun pair mem => ?_⟩
          simp only [Consumer.pending, List.flatten_cons, List.mem_append] at mem ⊢
          rcases mem with mem | mem | mem
          · exact .inr (.inl mem)
          · exact .inl (held pair mem)
          · exact .inr (.inr mem)
        · exact live.drained (embedding ▸ ended)
      · cases taken
  | embedFails vectors inserted =>
      simp only [RunState.consumerStep] at taken
      split at taken
      · rename_i chunk rest batch last embedding
        cases taken
        obtain ⟨store, rows⟩ := spoilChunk_spec s.work chunk vectors inserted
        exact live.consume store (fun id mem => rows ▸ mem) (absurd rfl) nofun
      · cases taken
  | sparse vectors =>
      simp only [RunState.consumerStep] at taken
      split at taken
      · rename_i batch last embedding
        cases taken
        refine live.consume rfl (fun _ mem => mem) (fun _ => ?_) fun ended => ?_
        · rw [embedding]
          refine ⟨nofun, fun pair mem => .inr (List.mem_append_left _ ?_)⟩
          simpa [Consumer.pending] using mem
        · cases last with
          | true => exact live.drained (by rw [embedding]; rfl)
          | false => cases ended
      · cases taken
  | sparseFails =>
      simp only [RunState.consumerStep] at taken
      split at taken
      · cases taken
        exact live.consume rfl (fun _ mem => mem) (absurd rfl) nofun
      · cases taken
  | channelClosed =>
      simp only [RunState.consumerStep] at taken
      split at taken
      · rename_i buffer waiting
        obtain ⟨⟨empty, ended⟩, rfl⟩ :=
          Option.ite_none_right_eq_some.mp taken |>.imp id Option.some.inj
        refine live.consume rfl (fun _ mem => mem) (fun _ => ?_) fun _ => ⟨ended, empty⟩
        rw [waiting, empty]
        refine ⟨nofun, fun pair mem => .inr ?_⟩
        split
        · rename_i nothing
          rw [List.isEmpty_iff.mp nothing] at mem
          exact mem
        · rw [pending_startBatch]
          exact mem
      · cases taken

omit [Component α] in
/-- When both futures are done, what is still owed is either embedded or rolled back. -/
theorem Live.joinStep (live : Live c s) (apart : c.SymbolsApart) {t : RunState α K}
    (taken : s.joinStep = some t) :
    t.outcome.isSome = true ∧ Settled c (fun _ => False) t.work := by
  unfold RunState.joinStep at taken
  split at taken
  · rename_i ended
    obtain ⟨idle, sent⟩ := live.ended ended
    have recorded : ∀ path, s.Owed path → path ∈ s.indexedDocIds := by
      rintro path (⟨phase, found, -⟩ | listed)
      · rw [idle] at found
        cases found
      · exact listed
    split at taken
    · rename_i finished
      cases taken
      obtain ⟨-, empty⟩ := live.drained (by rw [finished]; rfl)
      refine ⟨rfl, live.settled.placed, live.settled.stored, fun path mem current => .inl ?_⟩
      rcases live.settled.vectors path mem current with held | owed
      · exact held
      · intro pair listed
        have carried := live.carried (by rw [finished]; nofun) path (recorded path owed) pair listed
        simpa [inFlight, sent, empty, finished, Consumer.pending] using carried
    · cases taken
      exact ⟨rfl, (live.settled.imp recorded).rollback apart⟩
    · cases taken
  · cases taken

/-- The states of a run: still going, or returned with nothing owed. -/
def Accounted (c : RunConfig α K) (s : RunState α K) : Prop :=
  Live c s ∨ s.outcome.isSome = true ∧ Settled c (fun _ => False) s.work

theorem Accounted.step (apart : c.SymbolsApart) {event : RunEvent α K} {t : RunState α K}
    (accounted : Accounted c s) (admitted : Admitted c s event)
    (taken : s.step c event = some t) : Accounted c t := by
  unfold RunState.step at taken
  split at taken
  · cases taken
  · rename_i running
    rcases accounted with live | ⟨returned, -⟩
    · cases event with
      | producer event => exact .inl (live.producerStep apart admitted taken)
      | consumer event => exact .inl (live.consumerStep taken)
      | join => exact .inr (live.joinStep apart taken)
    · exact absurd returned running

end RunState

/-! ## Every run -/

/-- **No document is recorded as indexed without its vectors.**  Start from tables in which
nothing is owed, with no symbol id given out for two paths, and take any interleaving of
workers, sink and consumer, with any embed flush failing.  If no step loses a debt, then
once the run has returned every document whose hash row is current has all its vectors. -/
theorem runProducerConsumer_indexed {α K : Type} [Component α] {c : RunConfig α K}
    (apart : c.SymbolsApart) {work : Workspace α K} (settled : Settled c (fun _ => False) work)
    (files : List String) (events : List (RunEvent α K))
    (admitted : EachStep (RunState.step c) (RunState.Admitted c) (.start work files) events) :
    Throughout (RunState.step c) (fun s => s.outcome.isSome = true → c.Indexed s.work)
      (.start work files) events := by
  have accounted : Throughout (RunState.step c) (RunState.Accounted c) (.start work files) events :=
    throughout_of_eachStep (fun s event t inv ok taken => inv.step apart ok taken)
      (.inl (RunState.live_start settled files)) admitted
  refine accounted.imp fun s inv returned => ?_
  rcases inv with live | ⟨-, settled⟩
  · rw [live.running] at returned
    cases returned
  · exact settled.indexed

/-- Two files on disk. -/
def twoFiles : RunConfig Int Int where
  pipeline := plainPipeline
  disk :=
    { read := fun path =>
        if path = "a.rs" then some "one" else if path = "b.rs" then some "two" else none
      mtimeNs := fun _ => some 1 }
  concurrency := 2

theorem twoFiles_apart : twoFiles.SymbolsApart := by
  have ids : ∀ path, ∀ r ∈ (twoFiles.extractionOf path).records path,
      path = "a.rs" ∧ r.id = "sym-a.rs::one" ∨ path = "b.rs" ∧ r.id = "sym-b.rs::two" := by
    intro path r mem
    by_cases a : path = "a.rs"
    · subst a
      exact .inl ⟨rfl, by rw [List.mem_singleton.mp mem]; decide⟩
    · by_cases b : path = "b.rs"
      · subst b
        exact .inr ⟨rfl, by rw [List.mem_singleton.mp mem]; decide⟩
      · simp [RunConfig.extractionOf, twoFiles, a, b, Extraction.records] at mem
  intro path path' r mem r' mem' same
  rcases ids path r mem with ⟨rfl, id⟩ | ⟨rfl, id⟩ <;>
    rcases ids path' r' mem' with ⟨rfl, id'⟩ | ⟨rfl, id'⟩ <;>
    simp_all

/-- The work on one path, up to the symbols. -/
def fileEvents (path : String) : List (RunEvent Int Int) :=
  [.start, .insertDocument, .upsertFileHash].map fun action => .producer (.work path action)

/-- Both files are parsed and sunk, and one flush embeds them. -/
def cleanRun : List (RunEvent Int Int) :=
  [.producer .pull, .producer .pull] ++ fileEvents "b.rs" ++ fileEvents "a.rs" ++
    [.producer (.work "b.rs" .extractSymbols), .producer (.work "a.rs" .extractSymbols),
      .producer (.sink "b.rs"), .producer .send, .consumer .recv, .producer (.sink "a.rs"),
      .producer .send, .producer .endStream, .consumer .recv, .consumer .channelClosed,
      .consumer (.embedChunk (List.replicate 12 [1, 0])),
      .consumer (.sparse (List.replicate 12 ([1], [1]))), .join]

theorem runProducerConsumer_indexed_cleanRun :
    (exec (RunState.step twoFiles) (.start (Workspace.new emptyIndex true) ["a.rs", "b.rs"])
        cleanRun).map RunState.outcome = some (some .ok) ∧
      Throughout (RunState.step twoFiles)
        (fun s => s.outcome.isSome = true → twoFiles.Indexed s.work)
        (.start (Workspace.new emptyIndex true) ["a.rs", "b.rs"]) cleanRun := by
  refine ⟨by decide, runProducerConsumer_indexed twoFiles_apart
    (settled_new emptyIndex true) _ _ (eachStep_of_forall ?_ _)⟩
  simp [cleanRun, fileEvents, RunState.Admitted]

/-- `insert_symbols` fails for the only file of a run. -/
def failedExtraction : List (RunEvent Int Int) :=
  [.producer .pull] ++ fileEvents "a.rs" ++
    [.producer (.work "a.rs" (.extractFails 0)), .producer (.drain "a.rs"), .producer .endStream,
      .consumer .channelClosed, .join]

/-- The run returns `Ok` and leaves a document that counts as indexed and has no vector. -/
theorem runProducerConsumer_failedExtraction :
    twoFiles.SymbolsApart ∧ Settled twoFiles (fun _ => False) (Workspace.new emptyIndex true) ∧
      ∃ s, exec (RunState.step twoFiles) (.start (Workspace.new emptyIndex true) ["a.rs"])
          failedExtraction = some s ∧
        s.outcome = some .ok ∧ ¬ twoFiles.Indexed s.work := by
  refine ⟨twoFiles_apart, settled_new emptyIndex true, ?_⟩
  have checked : ((exec (RunState.step twoFiles)
      (.start (Workspace.new emptyIndex true) ["a.rs"]) failedExtraction).any fun s =>
        decide (s.outcome = some .ok ∧ ¬ twoFiles.Indexed s.work)) = true := by
    decide
  obtain ⟨s, ran, holds⟩ := (Option.any_eq_true _ _).mp checked
  exact ⟨s, ran, of_decide_eq_true holds⟩

end Ministr.Ingestion
