import TimedCache.ReadTracker

/-!
What becomes of the notes of a tracker. A stripe gathers the notes of its readers until they fill a
batch; then the batch goes to the sink as a whole, or is dropped as a whole and counted. So the
batches of a stripe and the notes that it holds are what its readers noted, in order, and the sink
has seen each batch that it took once.
-/

namespace TimedCache

namespace ReadTracker

/-- What befalls a tracker: reads are noted, and the sink is emptied batch by batch, or closed. -/
inductive Request where
  | record (reader : Nat) (h : Handle)
  | recordContended (reader : Nat) (h : Handle)
  | receive
  | close

variable {t : ReadTracker}

def answer (t : ReadTracker) : Request → ReadTracker
  | .record reader h => t.record reader h
  | .recordContended reader h => t.recordContended reader h
  | .receive =>
    match t.receive? with
    | some (_, t) => t
    | none => t
  | .close => t.close

def after (t : ReadTracker) (requests : List Request) : ReadTracker := requests.foldl answer t

theorem after_cons (t : ReadTracker) (r : Request) (requests : List Request) :
    t.after (r :: requests) = (t.answer r).after requests := rfl

/-- What the requests of a run yield, in order. -/
def along {α : Type} (yield : ReadTracker → Request → List α) (t : ReadTracker) :
    List Request → List α
  | [] => []
  | r :: rest => yield t r ++ (t.answer r).along yield rest

/-! ## What is noted, and what is flushed -/

/-- The note that a request adds to the stripe of a reader, who may share it with others. -/
def noted (reader : Nat) (t : ReadTracker) : Request → List Handle
  | .record other h => if t.stripeOf other = t.stripeOf reader then [h] else []
  | _ => []

/-- A batch that has left its stripe, for the sink or for good. -/
structure Flush where
  stripe : Nat
  batch : List Handle
  taken : Bool

/-- The batch that a note completes. The sink takes it if it is open and has room. -/
def flushes (t : ReadTracker) : Request → List Flush
  | .record reader h =>
    if (t.gathered reader).size + 1 < t.batchSize then []
    else [{ stripe := t.stripeOf reader, batch := (t.gathered reader).toList ++ [h]
            taken := !(t.sink.closed || t.sink.isFull) }]
  | _ => []

/-- The batches that leave the sink with a request: one is received, and a closed sink loses all. -/
def leaving (t : ReadTracker) : Request → List (List Handle)
  | .receive => t.sink.items.head?.toList
  | .close => t.sink.items
  | _ => []

/-- Every stripe has room for one more note before its batch is full. -/
structure Ready (t : ReadTracker) : Prop where
  striped : 0 < t.stripes.size
  short : ∀ reader, (t.gathered reader).size < t.batchSize

theorem gathered_create (stripes batchSize sinkCapacity reader : Nat) :
    (create stripes batchSize sinkCapacity).gathered reader = #[] := by
  unfold gathered create
  rw [Array.getElem?_replicate]
  split <;> rfl

theorem ready_create (stripes batchSize sinkCapacity : Nat) :
    (create stripes batchSize sinkCapacity).Ready := by
  refine ⟨?_, fun reader => ?_⟩
  · simp only [create, Array.size_replicate]
    omega
  · rw [gathered_create]
    exact (create stripes batchSize sinkCapacity).batchSize_pos

/-! ## One note -/

theorem gathered_modify (h : 0 < t.stripes.size) (change : Array Handle → Array Handle)
    (reader other : Nat) :
    ({ t with stripes := t.stripes.modify (t.stripeOf reader) change } : ReadTracker).gathered other =
      if t.stripeOf reader = t.stripeOf other then change (t.gathered other)
      else t.gathered other := by
  have hstripe : t.stripeOf other < t.stripes.size := Nat.mod_lt _ h
  have hsame : ({ t with stripes := t.stripes.modify (t.stripeOf reader) change } :
      ReadTracker).stripeOf other = t.stripeOf other := by
    unfold stripeOf
    rw [Array.size_modify]
  unfold gathered
  rw [hsame]
  dsimp only
  rw [Array.getElem?_modify, Array.getElem?_eq_getElem hstripe]
  split <;> rfl

theorem flush_eq (t : ReadTracker) (batch : List Handle) :
    t.flush batch =
      if t.sink.closed || t.sink.isFull then { t with dropped := t.dropped + 1 }
      else { t with sink := { t.sink with items := t.sink.items ++ [batch] } } := by
  unfold flush Queue.offer
  cases t.sink.closed || t.sink.isFull <;> rfl

theorem gathered_flush (t : ReadTracker) (batch : List Handle) (reader : Nat) :
    (t.flush batch).gathered reader = t.gathered reader := by
  rw [flush_eq]
  split <;> rfl

/-- A note stays on its stripe, or completes a batch with which the stripe is emptied. -/
theorem record_eq_note_or_flush (h : 0 < t.stripes.size) (reader : Nat) (note : Handle) :
    t.record reader note =
      if (t.gathered reader).size + 1 < t.batchSize then t.note reader note
      else ((t.note reader note).emptied reader).flush ((t.gathered reader).toList ++ [note]) := by
  have hnoted : (t.note reader note).gathered reader = (t.gathered reader).push note :=
    (gathered_modify h _ reader reader).trans (if_pos rfl)
  unfold record
  dsimp only
  rw [hnoted, Array.size_push, Array.toList_push]
  rfl

theorem gathered_note (h : 0 < t.stripes.size) (reader other : Nat) (note : Handle) :
    (t.note reader note).gathered other =
      if t.stripeOf reader = t.stripeOf other then (t.gathered other).push note
      else t.gathered other :=
  gathered_modify h _ reader other

/-- An emptied stripe holds nothing of what was noted on it before. -/
theorem gathered_emptied_note (h : 0 < t.stripes.size) (reader other : Nat) (note : Handle) :
    ((t.note reader note).emptied reader).gathered other =
      if t.stripeOf reader = t.stripeOf other then #[] else t.gathered other := by
  have hsize : (t.note reader note).stripes.size = t.stripes.size := Array.size_modify
  have hstripe (any : Nat) : (t.note reader note).stripeOf any = t.stripeOf any := by
    unfold stripeOf
    rw [hsize]
  have hemptied : ((t.note reader note).emptied reader).gathered other =
      if (t.note reader note).stripeOf reader = (t.note reader note).stripeOf other then #[]
      else (t.note reader note).gathered other :=
    gathered_modify (hsize ▸ h) _ reader other
  rw [hemptied, hstripe, hstripe, gathered_note h]
  split <;> rfl

/-- What a stripe holds after a note on it, or on another. -/
theorem gathered_record (h : 0 < t.stripes.size) (reader other : Nat) (note : Handle) :
    (t.record reader note).gathered other =
      if t.stripeOf reader = t.stripeOf other then
        if (t.gathered other).size + 1 < t.batchSize then (t.gathered other).push note else #[]
      else t.gathered other := by
  rw [record_eq_note_or_flush h]
  by_cases hstripe : t.stripeOf reader = t.stripeOf other
  · have hsame : t.gathered reader = t.gathered other := by
      unfold gathered
      rw [hstripe]
    rw [if_pos hstripe, hsame]
    split
    · rw [gathered_note h, if_pos hstripe]
    · rw [gathered_flush, gathered_emptied_note h, if_pos hstripe]
  · rw [if_neg hstripe]
    split
    · rw [gathered_note h, if_neg hstripe]
    · rw [gathered_flush, gathered_emptied_note h, if_neg hstripe]

/-! ## One request -/

theorem answer_receive (t : ReadTracker) :
    t.answer .receive = { t with sink := { t.sink with items := t.sink.items.tail } } := by
  unfold answer receive? Queue.receive?
  cases hitems : t.sink.items with
  | nil =>
    change t = { t with sink := { t.sink with items := [] } }
    rw [← hitems]
  | cons => rfl

theorem frame_answer (t : ReadTracker) (r : Request) :
    (t.answer r).batchSize = t.batchSize ∧ (t.answer r).stripes.size = t.stripes.size := by
  cases r with
  | record reader note =>
    change (t.record reader note).batchSize = _ ∧ (t.record reader note).stripes.size = _
    unfold record
    dsimp only
    split
    · exact ⟨rfl, Array.size_modify⟩
    · rw [flush_eq]
      split <;> exact ⟨rfl, Array.size_modify.trans Array.size_modify⟩
  | recordContended reader note => exact ⟨rfl, rfl⟩
  | receive =>
    rw [answer_receive]
    exact ⟨rfl, rfl⟩
  | close => exact ⟨rfl, rfl⟩

theorem stripeOf_answer (t : ReadTracker) (r : Request) (reader : Nat) :
    (t.answer r).stripeOf reader = t.stripeOf reader := by
  unfold stripeOf
  rw [(t.frame_answer r).2]

/-- What a stripe holds and what is noted on it stays there or leaves in a batch. -/
theorem Ready.gathered_answer (h : t.Ready) (r : Request) (reader : Nat) :
    (t.gathered reader).toList ++ noted reader t r =
      ((t.flushes r).filter (·.stripe = t.stripeOf reader)).flatMap (·.batch) ++
        ((t.answer r).gathered reader).toList := by
  cases r with
  | record other note =>
    change (t.gathered reader).toList ++ noted reader t (.record other note) =
      _ ++ ((t.record other note).gathered reader).toList
    rw [gathered_record h.striped]
    unfold noted flushes
    dsimp only
    by_cases hstripe : t.stripeOf other = t.stripeOf reader
    · have hsame : t.gathered other = t.gathered reader := by
        unfold gathered
        rw [hstripe]
      rw [if_pos hstripe, if_pos hstripe, hsame]
      split
      · rw [Array.toList_push]
        rfl
      · simp [hstripe]
    · rw [if_neg hstripe, if_neg hstripe, List.append_nil]
      split
      · rfl
      · simp [hstripe]
  | recordContended other note => exact List.append_nil _
  | receive =>
    rw [answer_receive]
    exact List.append_nil _
  | close => exact List.append_nil _

theorem Ready.answer (h : t.Ready) (r : Request) : (t.answer r).Ready := by
  obtain ⟨hbatch, hstripes⟩ := t.frame_answer r
  refine ⟨hstripes ▸ h.striped, fun reader => ?_⟩
  rw [hbatch]
  have hheld := h.short reader
  cases r with
  | record other note =>
    change ((t.record other note).gathered reader).size < t.batchSize
    rw [gathered_record h.striped]
    split
    · split
      · rename_i hroom
        rw [Array.size_push]
        exact hroom
      · exact t.batchSize_pos
    · exact hheld
  | recordContended other note => exact hheld
  | receive =>
    rw [answer_receive]
    exact hheld
  | close => exact hheld

theorem Ready.length_flushes (h : t.Ready) (r : Request) {f : Flush} (hf : f ∈ t.flushes r) :
    f.batch.length = t.batchSize := by
  cases r with
  | record reader note =>
    unfold flushes at hf
    dsimp only at hf
    split at hf
    · cases hf
    · have hshort := h.short reader
      cases List.mem_singleton.mp hf
      rw [List.length_append, Array.length_toList, List.length_singleton]
      omega
  | recordContended | receive | close => cases hf

/-- What the sink holds and what it takes stays there or leaves it. -/
theorem Ready.sink_answer (h : t.Ready) (r : Request) :
    t.sink.items ++ ((t.flushes r).filter (·.taken)).map (·.batch) =
      t.leaving r ++ (t.answer r).sink.items := by
  cases r with
  | record reader note =>
    change _ = [] ++ (t.record reader note).sink.items
    rw [record_eq_note_or_flush h.striped, List.nil_append]
    unfold flushes
    dsimp only
    split
    · exact List.append_nil _
    · rw [flush_eq]
      change _ = (if (t.sink.closed || t.sink.isFull) = true then _ else _ : ReadTracker).sink.items
      cases t.sink.closed || t.sink.isFull with
      | true => exact List.append_nil _
      | false => rfl
  | recordContended reader note => exact List.append_nil _
  | receive =>
    rw [answer_receive]
    change t.sink.items ++ [] = t.sink.items.head?.toList ++ t.sink.items.tail
    cases t.sink.items with
    | nil => rfl
    | cons => exact List.append_nil _
  | close => rfl

theorem Ready.dropped_answer (h : t.Ready) (r : Request) :
    (t.answer r).dropped = t.dropped + (t.flushes r).countP (!·.taken) := by
  cases r with
  | record reader note =>
    change (t.record reader note).dropped = _
    rw [record_eq_note_or_flush h.striped]
    unfold flushes
    dsimp only
    split
    · rfl
    · rw [flush_eq]
      change (if (t.sink.closed || t.sink.isFull) = true then _ else _ : ReadTracker).dropped = _
      cases t.sink.closed || t.sink.isFull <;> rfl
  | recordContended reader note => rfl
  | receive =>
    rw [answer_receive]
    rfl
  | close => rfl

/-! ## Runs -/

theorem after_frame (t : ReadTracker) (requests : List Request) :
    (t.after requests).batchSize = t.batchSize ∧
      (t.after requests).stripes.size = t.stripes.size := by
  induction requests generalizing t with
  | nil => exact ⟨rfl, rfl⟩
  | cons r rest ih =>
    obtain ⟨hbatch, hstripes⟩ := ih (t.answer r)
    exact ⟨hbatch.trans (t.frame_answer r).1, hstripes.trans (t.frame_answer r).2⟩

theorem Ready.after (h : t.Ready) (requests : List Request) : (t.after requests).Ready := by
  induction requests generalizing t with
  | nil => exact h
  | cons r rest ih => exact ih (h.answer r)

theorem Ready.gathered_after (h : t.Ready) (requests : List Request) (reader : Nat) :
    (t.gathered reader).toList ++ t.along (noted reader) requests =
      ((t.along flushes requests).filter (·.stripe = t.stripeOf reader)).flatMap (·.batch) ++
        ((t.after requests).gathered reader).toList := by
  induction requests generalizing t with
  | nil => exact List.append_nil _
  | cons r rest ih =>
    have hrest := ih (h.answer r)
    rw [t.stripeOf_answer] at hrest
    unfold along
    rw [← List.append_assoc, h.gathered_answer, List.append_assoc, hrest, List.filter_append,
      List.flatMap_append, List.append_assoc, after_cons]

theorem Ready.sink_after (h : t.Ready) (requests : List Request) :
    t.sink.items ++ ((t.along flushes requests).filter (·.taken)).map (·.batch) =
      t.along leaving requests ++ (t.after requests).sink.items := by
  induction requests generalizing t with
  | nil => exact List.append_nil _
  | cons r rest ih =>
    unfold along
    rw [List.filter_append, List.map_append, ← List.append_assoc, h.sink_answer, List.append_assoc,
      ih (h.answer r), List.append_assoc, after_cons]

theorem Ready.dropped_after (h : t.Ready) (requests : List Request) :
    (t.after requests).dropped = t.dropped + (t.along flushes requests).countP (!·.taken) := by
  induction requests generalizing t with
  | nil => rfl
  | cons r rest ih =>
    unfold along
    rw [after_cons, ih (h.answer r), h.dropped_answer, List.countP_append, Nat.add_assoc]

theorem Ready.length_along (h : t.Ready) (requests : List Request) {f : Flush}
    (hf : f ∈ t.along flushes requests) : f.batch.length = t.batchSize := by
  induction requests generalizing t with
  | nil => cases hf
  | cons r rest ih =>
    rcases List.mem_append.mp hf with hnow | hlater
    · exact h.length_flushes r hnow
    · exact (ih (h.answer r) hlater).trans (t.frame_answer r).1

/-- Whatever befalls a new tracker, what was noted on a stripe is what its batches held and what it
still holds, in order. Every batch was full when it left, and no stripe holds one. The batches that
the sink took are those that have left it and those that it holds, each once and in order; all
others were dropped and counted. -/
theorem notes_in_batches (stripes batchSize sinkCapacity : Nat) (requests : List Request) :
    let new := create stripes batchSize sinkCapacity
    let t := new.after requests
    let flushed := new.along flushes requests
    (∀ reader,
      new.along (noted reader) requests =
          (flushed.filter (·.stripe = new.stripeOf reader)).flatMap (·.batch) ++
            (t.gathered reader).toList ∧
        (t.gathered reader).size < max batchSize 1) ∧
    (∀ f ∈ flushed, f.batch.length = max batchSize 1) ∧
    (flushed.filter (·.taken)).map (·.batch) = new.along leaving requests ++ t.sink.items ∧
    t.dropped = flushed.countP (!·.taken) := by
  intro new t flushed
  have hready : new.Ready := ready_create stripes batchSize sinkCapacity
  refine ⟨fun reader => ⟨?_, ?_⟩, fun f hf => hready.length_along requests hf, ?_, ?_⟩
  · have hkept := hready.gathered_after requests reader
    rwa [gathered_create] at hkept
  · have hshort := (hready.after requests).short reader
    rwa [(new.after_frame requests).1] at hshort
  · exact hready.sink_after requests
  · exact (hready.dropped_after requests).trans (Nat.zero_add _)

end ReadTracker

end TimedCache
