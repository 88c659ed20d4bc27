import Mathlib.Algebra.Group.Nat.Defs
import Mathlib.Data.List.Basic

/-!
# Broadcasts received in order

The members of a group make the same broadcasts in the same order, and one of them is the root of
all. The root only says something, so it is a list of messages. What another member does may depend
on what it has received; it has to know how long a message is before it gets it.

`Accepts` says that a member makes just the broadcasts of a list, gets every message in the length
it has asked for, and ends with a result. It composes along `>>=`, and that is how a long exchange
is proved: one rule for each part of it.
-/

namespace EntangledMPI.Broadcasts

variable {α β γ : Type}

/-- A member other than the root, with the messages that are still to come. -/
abbrev Receiver (α : Type) := StateT (List (List α)) Option

/-- One broadcast, of `count` elements. -/
def bcast (count : ℕ) : Receiver α (List α)
  | [] => none
  | message :: rest => if message.length = count then some (message, rest) else none

/-- Give up. -/
def fail : Receiver α β := fun _ ↦ none

/-- The receiver takes the messages, no more and no fewer, and ends with `b`. -/
def Accepts (f : Receiver α β) (messages : List (List α)) (b : β) : Prop :=
  ∀ rest, f (messages ++ rest) = some (b, rest)

theorem bind_apply (f : Receiver α β) (g : β → Receiver α γ) (messages : List (List α)) :
    (f >>= g) messages = (f messages).bind fun result ↦ g result.1 result.2 := by
  cases h : f messages <;> simp [Bind.bind, StateT.bind, Option.bind, h]

@[simp] theorem accepts_pure (b : β) : Accepts (pure b : Receiver α β) [] b := fun _ ↦ rfl

theorem Accepts.bind {f : Receiver α β} {g : β → Receiver α γ} {messages messages' : List (List α)}
    {b : β} {c : γ} (hf : Accepts f messages b) (hg : Accepts (g b) messages' c) :
    Accepts (f >>= g) (messages ++ messages') c := by
  intro rest
  rw [bind_apply, List.append_assoc, hf (messages' ++ rest)]
  exact hg rest

theorem accepts_bcast {message : List α} {count : ℕ} (h : message.length = count) :
    Accepts (bcast count) [message] message := fun _ ↦ if_pos h

theorem Accepts.bcast {g : List α → Receiver α β} {message : List α} {messages : List (List α)}
    {count : ℕ} {b : β} (h : message.length = count) (hg : Accepts (g message) messages b) :
    Accepts (Broadcasts.bcast count >>= g) (message :: messages) b :=
  (accepts_bcast h).bind hg

/-- What can be computed without the others. -/
def ofOption : Option β → Receiver α β
  | some b => pure b
  | none => fail

theorem Accepts.ofOption {x : Option β} {g : β → Receiver α γ} {messages : List (List α)} {b : β}
    {c : γ} (hx : x = some b) (hg : Accepts (g b) messages c) :
    Accepts (ofOption x >>= g) messages c := by
  subst hx
  exact (accepts_pure b).bind hg

theorem Accepts.unique {f : Receiver α β} {messages : List (List α)} {b b' : β}
    (h : Accepts f messages b) (h' : Accepts f messages b') : b = b' := by
  have heq := (h []).symm.trans (h' [])
  rw [Option.some_inj] at heq
  exact (Prod.mk.inj heq).1

end EntangledMPI.Broadcasts
