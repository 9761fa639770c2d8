import Yadorilink.Segments.Coordinator

/-! What the writes of one append leave in the file: all before its offset as it was, and the
records where they were laid out if no write is cut twice inside one piece. -/

namespace Yadorilink.Segments

open FileBytes List

variable {segments stop offset : Nat} {file : Bytes} {results : List (List Nat)}

/-! ## Before the offset -/

theorem take_writeLoop {loop : WriteLoop} {pieces : List Bytes} {calls : List Nat}
    (before : stop ≤ loop.offset) (within : stop ≤ loop.file.length) :
    (writeLoop segments pieces calls loop).2.file.take stop = loop.file.take stop := by
  induction calls generalizing loop with
  | nil => rfl
  | cons written calls induction =>
    rw [writeLoop]
    split
    · split
      · rfl
      · have same : (loop.resume segments pieces written).file.take stop =
            loop.file.take stop := take_writeAt before within
        rw [← same]
        apply induction
        · exact Nat.le_trans before (Nat.le_add_right _ _)
        · exact length_le_of_take same within
    · rfl

theorem take_appendChunks {chunks : List (List Bytes)} (before : stop ≤ offset)
    (within : stop ≤ file.length) :
    (appendChunks segments file offset chunks results).2.take stop = file.take stop := by
  induction chunks generalizing file offset results with
  | nil => rfl
  | cons chunk chunks induction =>
    have same : (writeAllVectoredAt segments file chunk offset (results.headD [])).2.file.take
        stop = file.take stop :=
      @take_writeLoop segments stop (startLoop file chunk offset) _ _ before within
    rw [appendChunks]
    split
    · rw [← same]
      apply induction
      · exact Nat.le_trans before (Nat.le_add_right _ _)
      · exact length_le_of_take same within
    · exact same

/-! ## The records -/

/-- Some vectored write of an append is cut twice inside one piece. -/
def CutsChunk : List (List Bytes) → List (List Nat) → Prop
  | [], _ => False
  | chunk :: chunks, results => CutTwice chunk 0 (results.headD []) ∨ CutsChunk chunks results.tail

instance CutsChunk.decidable :
    (chunks : List (List Bytes)) → (results : List (List Nat)) →
      Decidable (CutsChunk chunks results)
  | [], _ => .isFalse not_false
  | _ :: chunks, results =>
    have := CutsChunk.decidable chunks results.tail
    inferInstanceAs (Decidable (_ ∨ _))

/-- A write that succeeds and is cut at most once inside each piece is one write of them all. -/
theorem file_writeAllVectoredAt {pieces : List Bytes} {calls : List Nat}
    (answers : Answers segments (nonemptyPieces pieces) calls (startLoop file pieces offset))
    (once : ¬CutTwice pieces 0 calls)
    (returned : (writeAllVectoredAt segments file pieces offset calls).1 = .ok) :
    (writeAllVectoredAt segments file pieces offset calls).2.file =
      writeAt 0 file offset pieces.flatten := by
  rw [← cutTwice_nonemptyPieces] at once
  obtain ⟨done, rest, cut, resumed, ended⟩ :=
    (resumed_startLoop file pieces offset).writeLoop (sized_startLoop file pieces offset) answers
      once
  rw [writeAllVectoredAt] at returned ⊢
  rcases ended with all | unanswered
  · have whole := resumed.split
    rw [all.2, append_nil] at whole
    rw [resumed.written, ← whole, take_of_length_le (Nat.le_add_right _ _),
      flatten_nonemptyPieces]
  · rw [unanswered.1] at returned
    cases returned

theorem file_appendChunks {chunks : List (List Bytes)}
    (answers : AnswersChunks segments file offset chunks results)
    (once : ¬CutsChunk chunks results)
    (returned : (appendChunks segments file offset chunks results).1 = true) :
    (appendChunks segments file offset chunks results).2 =
      writeAt 0 file offset chunks.flatten.flatten := by
  induction chunks generalizing file offset results with
  | nil => rfl
  | cons chunk chunks induction =>
    rcases not_or.mp once with ⟨first, later⟩
    rw [appendChunks] at returned ⊢
    split at returned
    · rename_i ok
      have landed := file_writeAllVectoredAt answers.1 first ok
      rw [induction answers.2 later returned, landed, writeAt_writeAt, flatten_cons,
        flatten_append]
    · cases returned

theorem flatten_chunkPieces (pending : List Bytes) (pendingBytes : Nat)
    (frames : List RecordFrame) :
    (chunkPieces pending pendingBytes frames).flatten.flatten =
      pending.flatten ++ (frames.map RecordFrame.bytes).flatten := by
  induction frames generalizing pending pendingBytes with
  | nil =>
    rw [chunkPieces, flatten_singleton, map_nil, flatten_nil, append_nil]
  | cons frame frames induction =>
    rw [chunkPieces]
    split
    · rw [flatten_cons, flatten_append, induction, flatten_append,
        flatten_nil, nil_append, map_cons, flatten_cons, append_assoc]
      rfl
    · rw [induction, flatten_append, map_cons, flatten_cons, append_assoc]
      rfl

theorem length_flatten_bytes (frames : List RecordFrame) :
    (frames.map RecordFrame.bytes).flatten.length = stagedBytes frames := by
  induction frames with
  | nil => rfl
  | cons frame frames induction =>
    rw [map_cons, flatten_cons, length_append, frame.length_bytes, induction]
    rfl

theorem readAt_appended {front back : List RecordFrame} {frame : RecordFrame}
    (answers : AnswersChunks segments file offset (chunkPieces [] 0 (front ++ frame :: back))
      results)
    (once : ¬CutsChunk (chunkPieces [] 0 (front ++ frame :: back)) results)
    (returned : (appendChunks segments file offset (chunkPieces [] 0 (front ++ frame :: back))
      results).1 = true) :
    readAt (appendChunks segments file offset (chunkPieces [] 0 (front ++ frame :: back))
      results).2 (offset + stagedBytes front) frame.len = frame.bytes := by
  rw [file_appendChunks answers once returned, flatten_chunkPieces, flatten_nil,
    nil_append, map_append, map_cons, flatten_append, flatten_cons,
    ← length_flatten_bytes, ← frame.length_bytes]
  exact readAt_writeAt_part file _ _ _ offset

theorem length_appended {frames : List RecordFrame}
    (answers : AnswersChunks segments file offset (chunkPieces [] 0 frames) results)
    (once : ¬CutsChunk (chunkPieces [] 0 frames) results)
    (returned : (appendChunks segments file offset (chunkPieces [] 0 frames) results).1 = true)
    (within : offset ≤ file.length) :
    offset + stagedBytes frames ≤
      (appendChunks segments file offset (chunkPieces [] 0 frames) results).2.length := by
  rw [file_appendChunks answers once returned, flatten_chunkPieces, flatten_nil,
    nil_append, ← length_flatten_bytes]
  cases all : (frames.map RecordFrame.bytes).flatten with
  | nil => exact within
  | cons byte bytes =>
    rw [writeAt, length_append, length_append, length_upTo]
    exact Nat.le_add_right _ _

end Yadorilink.Segments
