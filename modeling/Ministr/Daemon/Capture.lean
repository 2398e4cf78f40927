/-
# Daemon.Capture — the bounded log of a run

`CaptureBuf` keeps the first bytes of what a command prints and, in a ring, the last ones.  What
it holds depends on the stream alone, not on the chunks the two readers push it in
(`CaptureBuf.pushes_eq`).  The ring is kept short by dropping its first byte when it is full; with
no room at all it is full only while it is empty, and grows without bound.  So the buffer is the
head and the tail of the stream exactly when the tail has room or nothing is left for it
(`captured_iff`).
-/
import Ministr.Theory.Bytes
import Mathlib.Data.List.DropRight
import Mathlib.Data.List.Infix

namespace Ministr.Daemon.Capture

open Ministr.Theory

set_option autoImplicit false

/-- The first `headCap` bytes, then a ring of `tailCap` more, and how many there were. -/
structure CaptureBuf where
  head : List UInt8
  tail : List UInt8
  headCap : Nat
  tailCap : Nat
  total : Nat
  deriving DecidableEq, Repr

/-! ## Text -/

/-- A well-formed or a broken start of a text: its character and the bytes behind it. -/
def nextChar : List UInt8 → Option (Char × List UInt8)
  | [] => none
  | a :: rest =>
      let continues (b : UInt8) : Bool := decide (0x80 ≤ b.toNat) && decide (b.toNat ≤ 0xBF)
      let bits (b : UInt8) : Nat := b.toNat % 64
      let n := a.toNat
      let broken (rest : List UInt8) : Option (Char × List UInt8) := some ('\uFFFD', rest)
      if n < 0x80 then some (Char.ofNat n, rest)
      else if 0xC2 ≤ n ∧ n ≤ 0xDF then
        match rest with
        | b :: rest =>
            if continues b then some (Char.ofNat (n % 32 * 64 + bits b), rest)
            else broken (b :: rest)
        | [] => broken []
      else if 0xE0 ≤ n ∧ n ≤ 0xEF then
        match rest with
        | b :: rest =>
            let low := if n = 0xE0 then 0xA0 else 0x80
            let high := if n = 0xED then 0x9F else 0xBF
            if low ≤ b.toNat ∧ b.toNat ≤ high then
              match rest with
              | c :: rest =>
                  if continues c then
                    some (Char.ofNat ((n % 16 * 64 + bits b) * 64 + bits c), rest)
                  else broken (c :: rest)
              | [] => broken []
            else broken (b :: rest)
        | [] => broken []
      else if 0xF0 ≤ n ∧ n ≤ 0xF4 then
        match rest with
        | b :: rest =>
            let low := if n = 0xF0 then 0x90 else 0x80
            let high := if n = 0xF4 then 0x8F else 0xBF
            if low ≤ b.toNat ∧ b.toNat ≤ high then
              match rest with
              | c :: rest =>
                  if continues c then
                    match rest with
                    | d :: rest =>
                        if continues d then
                          some (Char.ofNat (((n % 8 * 64 + bits b) * 64 + bits c) * 64 + bits d),
                            rest)
                        else broken (d :: rest)
                    | [] => broken []
                  else broken (c :: rest)
              | [] => broken []
            else broken (b :: rest)
        | [] => broken []
      else broken rest

/-- `String::from_utf8_lossy`, for at most `fuel` characters. -/
def lossyFrom : Nat → List UInt8 → List Char
  | 0, _ => []
  | fuel + 1, bytes =>
      match nextChar bytes with
      | none => []
      | some (c, rest) => c :: lossyFrom fuel rest

def fromUtf8Lossy (bytes : List UInt8) : String := String.ofList (lossyFrom bytes.length bytes)

namespace CaptureBuf

/-! ## The buffer -/

def new (headCap tailCap : Nat) : CaptureBuf where
  head := []
  tail := []
  headCap := headCap
  tailCap := tailCap
  total := 0

/-- One byte into the ring. -/
def ringPush (tailCap : Nat) (tail : List UInt8) (b : UInt8) : List UInt8 :=
  (if tail.length = tailCap then tail.drop 1 else tail) ++ [b]

def push (buf : CaptureBuf) (chunk : List UInt8) : CaptureBuf :=
  let taken :=
    if buf.head.length < buf.headCap then min (buf.headCap - buf.head.length) chunk.length else 0
  { buf with
    head := buf.head ++ chunk.take taken
    tail := (chunk.drop taken).foldl (ringPush buf.tailCap) buf.tail
    total := buf.total + chunk.length }

def pushes (buf : CaptureBuf) (chunks : List (List UInt8)) : CaptureBuf := chunks.foldl push buf

variable (buf : CaptureBuf)

def kept : Nat := buf.head.length + buf.tail.length

def truncated : Bool := decide (buf.kept < buf.total)

def droppedMark : String :=
  "\n…[output guard: " ++ toString (buf.total - buf.kept) ++ " bytes dropped]…\n"

/-- The bytes that `render` turns into text. -/
def renderedBytes : List UInt8 :=
  buf.head ++ ((if buf.truncated then utf8 buf.droppedMark else []) ++ buf.tail)

def render : String × Bool := (fromUtf8Lossy buf.renderedBytes, buf.truncated)

end CaptureBuf

/-! ## What the buffer holds of a stream -/

/-- The last bytes of what did not fit in the head; all of them, when the ring has no room. -/
def ringOf (tailCap : Nat) (rest : List UInt8) : List UInt8 :=
  if tailCap = 0 then rest else rest.rtake tailCap

def bufOf (headCap tailCap : Nat) (stream : List UInt8) : CaptureBuf where
  head := stream.take headCap
  tail := ringOf tailCap (stream.drop headCap)
  headCap := headCap
  tailCap := tailCap
  total := stream.length

theorem length_rtake (n : Nat) (text : List UInt8) : (text.rtake n).length = min n text.length := by
  rw [List.rtake, List.length_drop]
  omega

theorem ringPush_ringOf (tailCap : Nat) (rest : List UInt8) (b : UInt8) :
    CaptureBuf.ringPush tailCap (ringOf tailCap rest) b = ringOf tailCap (rest ++ [b]) := by
  by_cases none : tailCap = 0
  · -- a full ring with no room is empty, and there is nothing to drop
    rw [CaptureBuf.ringPush, ringOf, ringOf, if_pos none, if_pos none]
    split
    · rename_i empty
      rw [none, List.length_eq_zero_iff] at empty
      rw [empty]
      rfl
    · rfl
  · rw [CaptureBuf.ringPush, ringOf, ringOf, if_neg none, if_neg none, length_rtake, List.rtake,
      List.rtake, List.length_append, List.length_singleton]
    rcases Nat.lt_or_ge rest.length tailCap with short | long
    · rw [if_neg (by omega), Nat.sub_eq_zero_of_le (Nat.le_of_lt short), List.drop_zero,
        Nat.sub_eq_zero_of_le short, List.drop_zero]
    · rw [if_pos (by omega), List.drop_drop,
        List.drop_append_of_le_length (by omega), Nat.sub_add_comm long]

theorem foldl_ringPush (tailCap : Nat) (rest more : List UInt8) :
    more.foldl (CaptureBuf.ringPush tailCap) (ringOf tailCap rest) = ringOf tailCap (rest ++ more) := by
  induction more generalizing rest with
  | nil => rw [List.foldl_nil, List.append_nil]
  | cons b more ih =>
      rw [List.foldl_cons, ringPush_ringOf, ih, List.append_assoc, List.singleton_append]

/-- One chunk continues the stream. -/
theorem push_bufOf (headCap tailCap : Nat) (stream chunk : List UInt8) :
    (bufOf headCap tailCap stream).push chunk = bufOf headCap tailCap (stream ++ chunk) := by
  have taken : (if (stream.take headCap).length < headCap then
      min (headCap - (stream.take headCap).length) chunk.length else 0) =
      min (headCap - stream.length) chunk.length := by
    rw [List.length_take]
    split <;> omega
  have head : stream.take headCap ++ chunk.take (min (headCap - stream.length) chunk.length) =
      (stream ++ chunk).take headCap := by
    rw [List.take_append, ← List.take_eq_take_min]
  have rest : stream.drop headCap ++ chunk.drop (min (headCap - stream.length) chunk.length) =
      (stream ++ chunk).drop headCap := by
    rw [List.drop_append]
    congr 1
    rcases Nat.le_total (headCap - stream.length) chunk.length with short | long
    · rw [Nat.min_eq_left short]
    · rw [Nat.min_eq_right long, List.drop_length, List.drop_eq_nil_of_le long]
  dsimp only [CaptureBuf.push, bufOf]
  rw [taken, head, foldl_ringPush, rest, List.length_append]

/-- **The buffer is a function of the stream.** -/
theorem CaptureBuf.pushes_eq (headCap tailCap : Nat) (chunks : List (List UInt8)) :
    (CaptureBuf.new headCap tailCap).pushes chunks = bufOf headCap tailCap chunks.flatten := by
  have run : ∀ stream, (bufOf headCap tailCap stream).pushes chunks =
      bufOf headCap tailCap (stream ++ chunks.flatten) := by
    induction chunks with
    | nil => intro stream; simp [CaptureBuf.pushes]
    | cons chunk chunks ih =>
        intro stream
        rw [CaptureBuf.pushes, List.foldl_cons, push_bufOf, ← CaptureBuf.pushes, ih,
          List.append_assoc, List.flatten_cons]
  have start : CaptureBuf.new headCap tailCap = bufOf headCap tailCap [] := by
    rw [bufOf, ringOf]
    split <;> simp [CaptureBuf.new]
  rw [start, run, List.nil_append]

/-! ## The bound -/

/-- What is captured of the stream that comes in these chunks. -/
structure Captured (headCap tailCap : Nat) (chunks : List (List UInt8)) : Prop where
  head : ((CaptureBuf.new headCap tailCap).pushes chunks).head =
    chunks.flatten.take (min headCap chunks.flatten.length)
  tail : ((CaptureBuf.new headCap tailCap).pushes chunks).tail =
    chunks.flatten.rtake (min tailCap (chunks.flatten.length -
      ((CaptureBuf.new headCap tailCap).pushes chunks).head.length))
  total : ((CaptureBuf.new headCap tailCap).pushes chunks).total = chunks.flatten.length
  held : ((CaptureBuf.new headCap tailCap).pushes chunks).kept ≤ headCap + tailCap
  truncated : ((CaptureBuf.new headCap tailCap).pushes chunks).render.2 = true ↔
    headCap + tailCap < chunks.flatten.length
  verbatim : ((CaptureBuf.new headCap tailCap).pushes chunks).render.2 = false →
    ((CaptureBuf.new headCap tailCap).pushes chunks).renderedBytes = chunks.flatten
  stream : ∀ others : List (List UInt8), others.flatten = chunks.flatten →
    (CaptureBuf.new headCap tailCap).pushes others = (CaptureBuf.new headCap tailCap).pushes chunks

section Bound

variable {headCap tailCap : Nat} {stream : List UInt8}

theorem ringOf_eq (fits : tailCap ≠ 0 ∨ stream.length ≤ headCap) :
    ringOf tailCap (stream.drop headCap) =
      stream.rtake (min tailCap (stream.length - (stream.take headCap).length)) := by
  rw [List.length_take, ringOf]
  split
  · rename_i none
    have short : stream.length ≤ headCap := fits.resolve_left fun some => some none
    rw [List.rtake, List.drop_eq_nil_of_le short, List.drop_eq_nil_of_le (by omega)]
  · rw [List.rtake, List.rtake, List.drop_drop, List.length_drop]
    rcases Nat.le_total headCap stream.length with long | short
    · congr 1
      omega
    · rw [List.drop_eq_nil_of_le (by omega), List.drop_eq_nil_of_le (by omega)]

theorem kept_bufOf (fits : tailCap ≠ 0 ∨ stream.length ≤ headCap) :
    (bufOf headCap tailCap stream).kept = min (headCap + tailCap) stream.length := by
  show (stream.take headCap).length + (ringOf tailCap (stream.drop headCap)).length = _
  rw [ringOf_eq fits, length_rtake, List.length_take]
  omega

theorem truncated_bufOf (fits : tailCap ≠ 0 ∨ stream.length ≤ headCap) :
    (bufOf headCap tailCap stream).truncated = true ↔ headCap + tailCap < stream.length := by
  rw [CaptureBuf.truncated, decide_eq_true_eq, kept_bufOf fits]
  show min (headCap + tailCap) stream.length < stream.length ↔ _
  omega

theorem renderedBytes_bufOf (fits : tailCap ≠ 0 ∨ stream.length ≤ headCap)
    (whole : (bufOf headCap tailCap stream).truncated = false) :
    (bufOf headCap tailCap stream).renderedBytes = stream := by
  have short : stream.length ≤ headCap + tailCap := by
    rw [← Nat.not_lt, ← truncated_bufOf fits, whole]
    exact Bool.false_ne_true
  have tail : ringOf tailCap (stream.drop headCap) = stream.drop headCap := by
    rw [ringOf, List.rtake, List.length_drop]
    split
    · rfl
    · rw [Nat.sub_eq_zero_of_le (by omega), List.drop_zero]
  rw [CaptureBuf.renderedBytes, whole, if_neg Bool.false_ne_true, List.nil_append]
  show stream.take headCap ++ ringOf tailCap (stream.drop headCap) = stream
  rw [tail, List.take_append_drop]

/-- With no room in the ring and something left for it, too much is held. -/
theorem kept_of_noTail (none : tailCap = 0) (long : headCap < stream.length) :
    headCap + tailCap < (bufOf headCap tailCap stream).kept := by
  show _ < (stream.take headCap).length + (ringOf tailCap (stream.drop headCap)).length
  rw [ringOf, if_pos none, List.length_take, List.length_drop]
  omega

end Bound

/-- **A run's log is the head and the tail of its stream, whatever the chunks, exactly when the
tail has room or the head holds everything.** -/
theorem captured_iff (headCap tailCap : Nat) (chunks : List (List UInt8)) :
    Captured headCap tailCap chunks ↔ tailCap ≠ 0 ∨ chunks.flatten.length ≤ headCap := by
  have state := CaptureBuf.pushes_eq headCap tailCap chunks
  constructor
  · intro captured
    have held := captured.held
    rw [state] at held
    rcases Nat.eq_zero_or_pos tailCap with none | room
    · exact .inr (Nat.le_of_not_lt fun long => Nat.not_lt_of_le held (kept_of_noTail none long))
    · exact .inl (Nat.ne_of_gt room)
  · intro fits
    refine ⟨?_, ?_, ?_, ?_, ?_, ?_, fun others same => ?_⟩
    · rw [state, ← List.take_eq_take_min]
      rfl
    · rw [state]
      exact ringOf_eq fits
    · rw [state]
      rfl
    · rw [state, kept_bufOf fits]
      exact Nat.min_le_left _ _
    · rw [state]
      exact truncated_bufOf fits
    · rw [state]
      exact renderedBytes_bufOf fits
    · rw [CaptureBuf.pushes_eq, same, state]

/-- With a head of two bytes and no tail, five bytes are held of a stream of five. -/
theorem noTail_held :
    ((CaptureBuf.new 2 0).pushes [[1, 2, 3], [4, 5]]).kept = 5 ∧
      ((CaptureBuf.new 2 0).pushes [[1, 2, 3], [4, 5]]).render.2 = false ∧
      ¬ Captured 2 0 [[1, 2, 3], [4, 5]] := by
  refine ⟨by decide, by decide, fun captured => ?_⟩
  have held := captured.held
  revert held
  decide

end Ministr.Daemon.Capture
