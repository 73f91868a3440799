import CountedStack.Command

/-! Threads that take turns on one stack, and a workload for them. -/

namespace CountedStack

variable {σ : Type}

/-- `order` holds the steps of all `programs`, each program's steps in their own order. -/
inductive Interleaves : List (List σ) → List σ → Prop where
  | done {programs : List (List σ)} : (∀ p ∈ programs, p = []) → Interleaves programs []
  | step {programs : List (List σ)} {thread : Nat} {x : σ} {rest order : List σ} :
      programs[thread]? = some (x :: rest) →
      Interleaves (programs.set thread rest) order → Interleaves programs (x :: order)

theorem Interleaves.cons_nil {programs : List (List σ)} {order : List σ} (h : Interleaves programs order) :
    Interleaves ([] :: programs) order := by
  induction h with
  | done h => exact .done (by simpa using h)
  | @step programs thread x rest order hx _ ih =>
    exact @Interleaves.step _ _ (thread + 1) _ _ _ (by simpa using hx) ih

theorem interleaves_flatten (programs : List (List σ)) : Interleaves programs programs.flatten := by
  induction programs with
  | nil => exact .done (by simp)
  | cons p programs ih =>
    induction p with
    | nil => exact ih.cons_nil
    | cons x rest ihp => exact @Interleaves.step _ _ 0 _ _ _ rfl ihp

structure Workload where
  threads : Nat
  pushes : Nat
  pops : Nat

namespace Workload

/-- What thread `t` does: it pushes its run of numbers, the first of which is absent for the first
thread, and then pops. -/
def program (w : Workload) (t : Nat) : List (Command Count) :=
  (List.range w.pushes).map (fun i => .push (Count.ofInt (t * w.pushes + i : Nat)))
    ++ List.replicate w.pops .pop

def programs (w : Workload) : List (List (Command Count)) := (List.range w.threads).map w.program

structure Totals where
  pushed : Nat
  popped : Nat
  size : Nat
  depth : Count
  isEmpty : Bool
  /-- The items left, in ascending order. Where threads pop, which items are left is up to their
  turns. -/
  left : Option (List Int)
deriving DecidableEq

def run (w : Workload) (order : List (Command Count)) : Totals :=
  let s := ({} : Stack Count).after order
  { pushed := Stack.successes Command.isPush {} order
    popped := Stack.successes Command.isPop {} order
    size := s.size
    depth := s.depth.value
    isEmpty := s.isEmpty
    left := if w.pops = 0 then some ((s.items.map (·.val)).mergeSort (· ≤ ·)) else none }

def totals (w : Workload) : Totals := w.run w.programs.flatten

end Workload

end CountedStack
