import Jess.Proofs.Onward

/-!
# Complaints stay filed

No parser takes back a complaint, wherever it starts and however it ends. That
is so because parsers only go forward, and it is left to instances to find it
for parsers put together from others.
-/

namespace Jess.Parser

variable {α β : Type}

/-- A parser that files its complaints behind those before it and takes none back. -/
class Keeps (p : Parser α) : Prop where
  grows : ∀ s : State, ∃ more, (leaves (p s)).complaints = s.complaints ++ more

namespace Keeps

theorem keeps {p : Parser α} (keep : Keeps p) (s : State) (x : Complaint)
    (filed : x ∈ s.complaints) : x ∈ (leaves (p s)).complaints := by
  obtain ⟨more, grown⟩ := keep.grows s
  rw [grown]
  exact Array.mem_append_left more filed

instance (p : Parser α) [proceeds : Proceeds p] : Keeps p :=
  ⟨fun s => (proceeds.onward s).complaints⟩

instance (p : Parser α) (f : α → Parser β) [first : Keeps p] [later : ∀ v, Keeps (f v)] :
    Keeps (p >>= f) where
  grows s := by
    obtain ⟨more, grown⟩ := first.grows s
    rw [bind_apply]
    cases run : p s with
    | ok v t =>
        rw [run] at grown
        obtain ⟨others, grownLater⟩ := (later v).grows t
        refine ⟨more ++ others, grownLater.trans ?_⟩
        rw [← Array.append_assoc]
        exact congrArg (· ++ others) grown
    | error stop t =>
        rw [run] at grown
        exact ⟨more, grown⟩

theorem after {p : Parser α} {f : α → Parser β} [Keeps p] (later : ∀ v, Keeps (f v)) :
    Keeps (p >>= f) := inferInstance

instance (c : Prop) [Decidable c] (p q : Parser α) [Keeps p] [Keeps q] :
    Keeps (if c then p else q) := by
  split <;> infer_instance

end Keeps

end Jess.Parser
