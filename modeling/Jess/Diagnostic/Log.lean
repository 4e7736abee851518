import Jess.Diagnostic

/-!
A log of diagnostics in the order of their reports. Beside the diagnostics that are still
held, a log remembers whether a static one was reported since the last reset, and whether
a runtime one was ever reported. Taking the diagnostics out of a log changes neither.
-/

namespace Jess.Diagnostic

structure Log where
  held : Array Diagnostic
  static : Bool
  runtime : Bool

namespace Log

def empty : Log := ⟨#[], false, false⟩

def push (log : Log) (d : Diagnostic) : Log :=
  ⟨log.held.push d, log.static || d.isStatic, log.runtime || !d.isStatic⟩

def append (log : Log) (ds : List Diagnostic) : Log := ds.foldl push log

def forgetStatic (log : Log) : Log := { log with static := false }

def drain (log : Log) : List Diagnostic × Log := (log.held.toList, { log with held := #[] })

def isEmpty (log : Log) : Bool := log.held.isEmpty

/-- What the reporter of a mistake is told. -/
def receipt : String := "error(s) emitted"

def emitted (ds : List Diagnostic) : String :=
  ds.foldl (fun text d => text ++ d.text ++ "\n") ""

@[simp] theorem append_nil (log : Log) : log.append [] = log := rfl

theorem append_cons (log : Log) (d : Diagnostic) (ds : List Diagnostic) :
    log.append (d :: ds) = (log.push d).append ds := rfl

theorem held_append (log : Log) (ds : List Diagnostic) :
    (log.append ds).held.toList = log.held.toList ++ ds := by
  induction ds generalizing log with
  | nil => simp
  | cons d ds ih =>
      rw [append_cons, ih]
      simp [push]

theorem static_append (log : Log) (ds : List Diagnostic) :
    (log.append ds).static = (log.static || ds.any isStatic) := by
  induction ds generalizing log with
  | nil => simp
  | cons d ds ih =>
      rw [append_cons, ih]
      simp [push, Bool.or_assoc]

theorem runtime_append (log : Log) (ds : List Diagnostic) :
    (log.append ds).runtime = (log.runtime || ds.any fun d => !d.isStatic) := by
  induction ds generalizing log with
  | nil => simp
  | cons d ds ih =>
      rw [append_cons, ih]
      simp [push, Bool.or_assoc]

end Log

end Jess.Diagnostic
