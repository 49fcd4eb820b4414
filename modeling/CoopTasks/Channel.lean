import CoopTasks.Value

/-!
# Channels

An ordered queue of values between tasks. A put hands its value to the oldest task that waits for
one; otherwise the value is buffered, and what happens when the buffer is full is decided by the
channel's policy. A channel holds buffered values or waiting takers, never both.
-/

namespace CoopTasks

/-- What a put into a full buffer does. -/
inductive Overflow where
  /-- Discards the new value. -/
  | drop
  /-- Discards the oldest value. -/
  | slide
  /-- Suspends the putter until a value is taken. -/
  | block
  /-- Throws an error into the putter. -/
  | fail
deriving DecidableEq, Repr

inductive Buffering where
  | unbounded
  | fixed (capacity : Nat) (overflow : Overflow)
deriving DecidableEq, Repr

structure Channel where
  policy : Buffering
  buffer : List Value := []
  takers : List TaskId := []
  putters : List (TaskId × Value) := []
  closed : Bool := false

inductive PutAnswer where
  /-- The value goes to this taker. -/
  | delivered (taker : TaskId)
  | buffered
  | dropped
  | blocked
  | overflowed (capacity : Nat)
deriving DecidableEq, Repr

inductive TakeAnswer where
  /-- A value, and the putter whose own value moved into the place it left. -/
  | ready (value : Value) (unblocked : Option TaskId)
  | pending
  | closed

/-- What a channel shows of itself. -/
structure ChannelView where
  id : ChannelId
  policy : Buffering
  buffered : Nat
  pendingTakers : Nat
  blockedPutters : Nat
  closed : Bool
deriving DecidableEq, Repr

namespace Overflow

def name : Overflow → String
  | drop => "Drop"
  | slide => "Slide"
  | block => "Block"
  | fail => "Fail"

def all : List Overflow := [drop, slide, block, fail]

def ofName? (name : String) : Option Overflow := all.find? fun overflow => overflow.name == name

end Overflow

namespace Buffering

def capacity? : Buffering → Option Nat
  | .unbounded => none
  | .fixed capacity _ => some capacity

/-- Whether a buffer of the given length takes one more value. -/
def hasRoom : Buffering → Nat → Bool
  | .unbounded, _ => true
  | .fixed capacity _, length => length < capacity

end Buffering

namespace Channel

/-- Appends to the buffer. -/
def store (c : Channel) (value : Value) : Channel := { c with buffer := c.buffer ++ [value] }

/-- A put that finds no taker and no room. -/
def overflow (c : Channel) (putter : TaskId) (value : Value) : PutAnswer × Channel :=
  match c.policy with
  | .unbounded => (.buffered, c.store value)
  | .fixed _ .drop => (.dropped, c)
  | .fixed _ .slide => (.buffered, { c with buffer := c.buffer.drop 1 ++ [value] })
  | .fixed _ .block => (.blocked, { c with putters := c.putters ++ [(putter, value)] })
  | .fixed capacity .fail => (.overflowed capacity, c)

/-- A closed channel drops what is put. -/
def put (c : Channel) (putter : TaskId) (value : Value) : PutAnswer × Channel :=
  if c.closed then (.dropped, c)
  else
    match c.takers with
    | taker :: rest => (.delivered taker, { c with takers := rest })
    | [] => if c.policy.hasRoom c.buffer.length then (.buffered, c.store value)
      else c.overflow putter value

/-- A taken value makes room for that of the first blocked putter. -/
def take (c : Channel) (taker : TaskId) : TakeAnswer × Channel :=
  match c.buffer with
  | value :: rest =>
    match c.putters with
    | (putter, next) :: putters =>
      (.ready value (some putter), { c with buffer := rest ++ [next], putters := putters })
    | [] => (.ready value none, { c with buffer := rest })
  | [] => if c.closed then (.closed, c) else (.pending, { c with takers := c.takers ++ [taker] })

theorem take_cases (c : Channel) (taker : TaskId) :
    c.take taker = (.closed, c) ∨
    (c.closed = false ∧ c.take taker = (.pending, { c with takers := c.takers ++ [taker] })) ∨
    (∃ value rest, c.take taker = (.ready value none, { c with buffer := rest })) ∨
    ∃ value buffer putter next putters, c.putters = (putter, next) :: putters ∧
      c.take taker = (.ready value (some putter), { c with buffer, putters }) := by
  cases hb : c.buffer with
  | nil =>
    by_cases hclosed : c.closed
    · exact Or.inl (by simp [take, hb, hclosed])
    · exact Or.inr (Or.inl ⟨by simpa using hclosed, by simp [take, hb, hclosed]⟩)
  | cons value rest =>
    cases hp : c.putters with
    | nil => exact Or.inr (Or.inr (Or.inl ⟨value, rest, by simp [take, hb, hp]⟩))
    | cons entry putters =>
      refine Or.inr (Or.inr (Or.inr ⟨value, rest ++ [entry.2], entry.1, entry.2, putters, rfl, ?_⟩))
      simp [take, hb, hp]

theorem overflow_cases (c : Channel) (putter : TaskId) (value : Value) :
    c.overflow putter value = (.blocked, { c with putters := c.putters ++ [(putter, value)] }) ∨
    (∃ buffer, c.overflow putter value = (.buffered, { c with buffer })) ∨
    c.overflow putter value = (.dropped, c) ∨
    ∃ capacity, c.overflow putter value = (.overflowed capacity, c) := by
  unfold overflow
  split
  · exact Or.inr (Or.inl ⟨_, rfl⟩)
  · exact Or.inr (Or.inr (Or.inl rfl))
  · exact Or.inr (Or.inl ⟨_, rfl⟩)
  · exact Or.inl rfl
  · exact Or.inr (Or.inr (Or.inr ⟨_, rfl⟩))

/-- A put that is not delivered touches the buffer alone, or the list of putters of a channel that
is open. -/
theorem put_cases (c : Channel) (putter : TaskId) (value : Value) :
    (c.closed = false ∧ ∃ taker takers, c.takers = taker :: takers ∧
      c.put putter value = (.delivered taker, { c with takers })) ∨
    (c.closed = false ∧
      c.put putter value = (.blocked, { c with putters := c.putters ++ [(putter, value)] })) ∨
    (∃ buffer, c.put putter value = (.buffered, { c with buffer })) ∨
    c.put putter value = (.dropped, c) ∨
    ∃ capacity, c.put putter value = (.overflowed capacity, c) := by
  by_cases hclosed : c.closed
  · exact Or.inr (Or.inr (Or.inr (Or.inl (by simp [put, hclosed]))))
  have hopen : c.closed = false := by simpa using hclosed
  cases ht : c.takers with
  | cons taker rest => exact Or.inl ⟨hopen, taker, rest, rfl, by simp [put, hclosed, ht]⟩
  | nil =>
    right
    by_cases hroom : c.policy.hasRoom c.buffer.length
    · exact Or.inr (Or.inl ⟨c.buffer ++ [value], by simp [put, hclosed, ht, hroom, store]⟩)
    · have hput : c.put putter value = c.overflow putter value := by
        simp [put, hclosed, ht, hroom]
      rw [hput, ← ht]
      exact (c.overflow_cases putter value).imp (fun h => ⟨hopen, h⟩) id

/-- Forgets a task that no longer waits. -/
def withdraw (c : Channel) (task : TaskId) : Channel :=
  { c with
    takers := c.takers.filter (· ≠ task)
    putters := c.putters.filter (·.1 ≠ task) }

/-- Closes the channel: the values of blocked putters stay to be taken, and all who wait are to be
woken. -/
def close (c : Channel) : Channel :=
  if c.closed then c
  else
    { c with
      buffer := c.buffer ++ c.putters.map (·.2)
      takers := []
      putters := []
      closed := true }

/-- What the channel of the given number shows. -/
def view (c : Channel) (id : ChannelId) : ChannelView :=
  ⟨id, c.policy, c.buffer.length, c.takers.length, c.putters.length, c.closed⟩

end Channel

end CoopTasks
