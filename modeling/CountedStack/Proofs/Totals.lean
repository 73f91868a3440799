import CountedStack.Proofs.Balance
import CountedStack.Workload
import Mathlib.Data.List.Sort

/-!
With fewer pops than pushes each thread's pushes stay ahead of its pops, so that no pop fails. Otherwise the pops of
each thread catch up with its pushes from any point on, so that nothing is left.
-/

namespace CountedStack

def pushAll (ns : List Nat) : List (Command Count) := ns.map fun n : Nat => .push (Count.ofInt n)

theorem move_push {n : Nat} (small : n < 2 ^ 63) :
    (Command.push (Count.ofInt n)).move = if n = 0 then .rest else .place (Count.ofInt n) := by
  have value : (Count.ofInt n).val = n := by
    rw [Count.val_ofInt]
    omega
  have absent : isAbsent (Count.ofInt n) = ((n : Int) == 0) := congrArg (· == 0) value
  rw [Command.move, Move.ofPush, absent]
  cases n with
  | zero => rfl
  | succ n => rfl

theorem placed_pushAll {ns : List Nat} (small : ∀ n ∈ ns, n < 2 ^ 63) :
    placed (pushAll ns) = (ns.filter (· ≠ 0)).map fun n : Nat => Count.ofInt n := by
  induction ns with
  | nil => rfl
  | cons n ns ih =>
    obtain ⟨bound, others⟩ := List.forall_mem_cons.mp small
    have rest := ih others
    have first := move_push bound
    have head : placed (pushAll (n :: ns)) = placed [Command.push (Count.ofInt n)] ++ placed (pushAll ns) :=
      placed_append [Command.push (Count.ofInt n)] (pushAll ns)
    rw [head, rest]
    by_cases zero : n = 0
    · rw [if_pos zero] at first
      rw [List.filter_cons_of_neg (by simpa using zero)]
      simp [placed, first]
    · simp [placed, first, zero]

theorem popCount_pushAll (ns : List Nat) : popCount (pushAll ns) = 0 := by
  apply List.countP_eq_zero.mpr
  intro c member
  obtain ⟨n, _, rfl⟩ := List.mem_map.mp member
  simp only [Command.move, Move.ofPush]
  split <;> simp

theorem placed_replicate_pop (n : Nat) : placed (List.replicate n (.pop : Command Count)) = [] := by
  induction n with
  | zero => rfl
  | succ n ih => exact ih

theorem popCount_replicate_pop (n : Nat) : popCount (List.replicate n (.pop : Command Count)) = n := by
  simp [popCount, List.countP_replicate, Command.move]

theorem filter_range'_succ (start n : Nat) :
    (List.range' (start + 1) n).filter (· ≠ 0) = List.range' (start + 1) n := by
  apply List.filter_eq_self.mpr
  intro m member
  have := (List.mem_range'_1.mp member).1
  simp
  omega

theorem filter_range_succ (n : Nat) : (List.range (n + 1)).filter (· ≠ 0) = List.range' 1 n := by
  rw [List.range_eq_range', List.range'_succ, List.filter_cons_of_neg (by decide), filter_range'_succ]

/-- Among consecutive numbers at most one is zero. -/
theorem le_length_filter (start n : Nat) :
    n ≤ (((List.range n).map (start + ·)).filter (· ≠ 0)).length + 1 := by
  rw [← List.range'_eq_map_range]
  cases n with
  | zero => omega
  | succ n =>
    rw [List.range'_succ, List.filter_cons, filter_range'_succ]
    split <;> simp

namespace Workload

variable (w : Workload)

theorem program_eq (t : Nat) :
    w.program t = pushAll ((List.range w.pushes).map (t * w.pushes + ·)) ++ List.replicate w.pops .pop := by
  simp [program, pushAll, Function.comp_def]

theorem placed_program {t : Nat} (small : (t + 1) * w.pushes ≤ 2 ^ 63) :
    placed (w.program t) =
      (((List.range w.pushes).map (t * w.pushes + ·)).filter (· ≠ 0)).map fun n : Nat => Count.ofInt n := by
  rw [program_eq, placed_append, placed_replicate_pop, List.append_nil]
  apply placed_pushAll
  intro n member
  obtain ⟨i, bound, rfl⟩ := List.mem_map.mp member
  have := List.mem_range.mp bound
  rw [Nat.succ_mul] at small
  omega

theorem popCount_program (t : Nat) : popCount (w.program t) = w.pops := by
  rw [program_eq, popCount_append, popCount_pushAll, popCount_replicate_pop, Nat.zero_add]

/-- The first threads together push all numbers up to a multiple of the pushes, zero left out. -/
theorem placed_programs {threads : Nat} (small : threads * w.pushes ≤ 2 ^ 63) :
    placed ((List.range threads).map w.program).flatten =
      ((List.range (threads * w.pushes)).filter (· ≠ 0)).map fun n : Nat => Count.ofInt n := by
  induction threads with
  | zero => simp [placed]
  | succ t ih =>
    have fewer : t * w.pushes ≤ 2 ^ 63 := by
      rw [Nat.succ_mul] at small
      omega
    rw [List.range_succ, List.map_append, List.flatten_append, placed_append, ih fewer,
      List.map_singleton, List.flatten_singleton, w.placed_program small, Nat.succ_mul, List.range_add,
      List.filter_append, List.map_append]

theorem popCount_programs (threads : Nat) :
    popCount ((List.range threads).map w.program).flatten = threads * w.pops := by
  induction threads with
  | zero => simp [popCount]
  | succ t ih =>
    rw [List.range_succ, List.map_append, List.flatten_append, popCount_append, ih, List.map_singleton,
      List.flatten_singleton, popCount_program, Nat.succ_mul]

theorem length_placed_programs (small : w.threads * w.pushes ≤ 2 ^ 63) :
    (placed w.programs.flatten).length = w.threads * w.pushes - 1 := by
  rw [programs, w.placed_programs small, List.length_map]
  cases w.threads * w.pushes with
  | zero => rfl
  | succ n => rw [filter_range_succ, List.length_range', Nat.add_sub_cancel]

/-- A cut is among the pushes, with all pops after it, or among the pops, with all pushes before it. -/
theorem cut_program {t : Nat} {xs ys : List (Command Count)} (cut : xs ++ ys = w.program t) :
    (popCount xs = 0 ∧ popCount ys = w.pops ∧ (placed ys).length ≤ w.pushes) ∨
      (placed xs = placed (w.program t) ∧ popCount xs ≤ w.pops ∧ placed ys = []) := by
  have total := w.popCount_program t
  rw [← cut, popCount_append] at total
  rw [← cut, placed_append]
  rw [program_eq] at cut
  rcases List.append_eq_append_iff.mp cut with ⟨rest, pushes, rfl⟩ | ⟨start, rfl, later⟩
  · left
    have noPops := popCount_pushAll ((List.range w.pushes).map (t * w.pushes + ·))
    have enough : (pushAll ((List.range w.pushes).map (t * w.pushes + ·))).length = w.pushes := by
      simp [pushAll]
    rw [pushes, popCount_append] at noPops
    rw [pushes, List.length_append] at enough
    have fewer : (placed rest).length ≤ rest.length := List.length_filterMap_le _ rest
    rw [placed_append, placed_replicate_pop, List.append_nil]
    omega
  · right
    have noPushes := placed_replicate_pop w.pops
    rw [later, placed_append] at noPushes
    have none : placed ys = [] := (List.append_eq_nil_iff.mp noPushes).2
    rw [none, List.append_nil]
    exact ⟨rfl, by omega, rfl⟩

variable {w} {xs ys order : List (Command Count)}

theorem exists_program (cut : xs ++ ys ∈ w.programs) (small : w.threads * w.pushes < 2 ^ 63) :
    ∃ t, xs ++ ys = w.program t ∧ (t + 1) * w.pushes ≤ 2 ^ 63 := by
  obtain ⟨t, member, same⟩ := List.mem_map.mp cut
  have bound : (t + 1) * w.pushes ≤ w.threads * w.pushes :=
    Nat.mul_le_mul_right _ (List.mem_range.mp member)
  exact ⟨t, same.symm, by omega⟩

theorem floor_of_cut (small : w.threads * w.pushes < 2 ^ 63) (fewer : w.pops < w.pushes)
    (cut : xs ++ ys ∈ w.programs) : 0 ≤ gain xs := by
  obtain ⟨t, program, bound⟩ := exists_program cut small
  unfold gain
  rcases w.cut_program program with ⟨none, _, _⟩ | ⟨all, some, _⟩
  · omega
  · have many := le_length_filter (t * w.pushes) w.pushes
    rw [all, w.placed_program bound, List.length_map]
    omega

theorem ceiling_of_cut (small : w.threads * w.pushes < 2 ^ 63) (enough : w.pushes ≤ w.pops)
    (cut : xs ++ ys ∈ w.programs) : gain ys ≤ 0 := by
  obtain ⟨t, program, _⟩ := exists_program cut small
  unfold gain
  rcases w.cut_program program with ⟨_, all, some⟩ | ⟨_, _, none⟩
  · omega
  · rw [none]
    simp

theorem push_or_pop_of_interleaves (h : Interleaves w.programs order) {c : Command Count} (member : c ∈ order) :
    (∃ x, c = .push x) ∨ c = .pop := by
  obtain ⟨program, present, inside⟩ := h.mem member
  obtain ⟨t, _, rfl⟩ := List.mem_map.mp present
  rcases List.mem_append.mp inside with push | pop
  · obtain ⟨i, _, same⟩ := List.mem_map.mp push
    exact .inl ⟨_, same.symm⟩
  · exact .inr (List.eq_of_mem_replicate pop)

theorem kept_of_interleaves (h : Interleaves w.programs order) : ∀ c ∈ order, c.isClear = false := by
  intro c member
  rcases push_or_pop_of_interleaves h member with ⟨x, rfl⟩ | rfl <;> rfl

theorem unadjusted_of_interleaves (h : Interleaves w.programs order) : ∀ c ∈ order, c.adjusts = false := by
  intro c member
  rcases push_or_pop_of_interleaves h member with ⟨x, rfl⟩ | rfl <;> rfl

section

variable (small : w.threads * w.pushes < 2 ^ 63) (h : Interleaves w.programs order)

include small h

theorem pushed_of_interleaves :
    Stack.successes Command.isPush {} order = w.threads * w.pushes - 1 := by
  rw [Stack.successes_push]
  exact (h.perm.filterMap _).length_eq.trans (w.length_placed_programs (Nat.le_of_lt small))

theorem size_of_interleaves :
    ((({} : Stack Count).after order).size : Int) = (w.threads * w.pushes - 1 : Nat)
      - (if w.pops < w.pushes then w.threads * w.pops else w.threads * w.pushes - 1 : Nat) := by
  have kept := kept_of_interleaves h
  have total : gain order = (w.threads * w.pushes - 1 : Nat) - (w.threads * w.pops : Nat) := by
    rw [gain_perm h.perm, gain, w.length_placed_programs (Nat.le_of_lt small)]
    exact congrArg _ (congrArg _ (w.popCount_programs w.threads))
  have none : (({} : Stack Count).size : Int) = 0 := rfl
  split
  · -- no pop fails, and the size is the gain
    rename_i fewer
    have floor : ∀ part, part <+: order → 0 ≤ gain part := fun part =>
      floor_of_interleaves h fun xs ys => floor_of_cut small fewer
    have size := ({} : Stack Count).size_after_of_floor kept fun part cut => by
      rw [none, Int.zero_add]
      exact floor part cut
    omega
  · -- pops may fail, but as many are still to come as it takes to leave nothing
    rename_i enough
    have ceiling : ∀ part, part <:+ order → gain part ≤ 0 := fun part =>
      ceiling_of_interleaves h fun xs ys => ceiling_of_cut small (by omega)
    have size := ({} : Stack Count).size_after_of_ceiling kept ceiling
    have last := ceiling order List.suffix_rfl
    omega

theorem popped_of_interleaves :
    Stack.successes Command.isPop {} order =
      if w.pops < w.pushes then w.threads * w.pops else w.threads * w.pushes - 1 := by
  have kept := kept_of_interleaves h
  have balance := ({} : Stack Count).size_after order
  have none : (({} : Stack Count).size : Int) = 0 := rfl
  rw [size_of_interleaves small h, pushed_of_interleaves small h, Stack.dropped_eq_zero _ kept] at balance
  omega

theorem depth_of_interleaves :
    (({} : Stack Count).after order).depth.value.val = (({} : Stack Count).after order).size := by
  apply Stack.depth_eq_size _ rfl (unadjusted_of_interleaves h)
  rintro part ⟨rest, rfl⟩
  have pushed := pushed_of_interleaves small h
  have bound := ({} : Stack Count).size_after_le part
  have none : ({} : Stack Count).size = 0 := rfl
  rw [Stack.successes_push, placed_append, List.length_append] at pushed
  omega

theorem left_of_interleaves (noPops : w.pops = 0) :
    ((({} : Stack Count).after order).items.map (·.val)).mergeSort (· ≤ ·) =
      (List.range' 1 (w.threads * w.pushes - 1)).map fun n : Nat => (n : Int) := by
  have kept := kept_of_interleaves h
  have pushesOnly : popCount order = 0 := by
    have same : popCount order = popCount w.programs.flatten := h.perm.countP_eq _
    rw [same, programs, popCount_programs, noPops, Nat.mul_zero]
  have items := ({} : Stack Count).items_after_of_pushes kept pushesOnly
  have numbers : ((placed w.programs.flatten).map (·.val)) =
      (List.range' 1 (w.threads * w.pushes - 1)).map fun n : Nat => (n : Int) := by
    rw [programs, w.placed_programs (Nat.le_of_lt small), List.map_map]
    cases total : w.threads * w.pushes with
    | zero => rfl
    | succ m =>
      rw [filter_range_succ, Nat.add_sub_cancel]
      apply List.map_congr_left
      intro n member
      have := (List.mem_range'_1.mp member).2
      rw [Function.comp_apply, Count.val_ofInt]
      omega
  have same : ((({} : Stack Count).after order).items.map (·.val)).Perm
      ((List.range' 1 (w.threads * w.pushes - 1)).map fun n : Nat => (n : Int)) := by
    rw [items, ← numbers, List.append_nil]
    exact ((List.reverse_perm _).trans (h.perm.filterMap _)).map _
  have sorted : ((List.range' 1 (w.threads * w.pushes - 1)).map fun n : Nat => (n : Int)).Pairwise (· ≤ ·) := by
    rw [List.pairwise_map]
    exact List.pairwise_le_range'.imp fun le => by omega
  exact ((List.mergeSort_perm _ _).trans same).eq_of_pairwise' (List.pairwise_mergeSort' (· ≤ ·) _) sorted

/-- The threads may as well run one after the other. -/
theorem run_eq_totals : w.run order = w.totals := by
  have serial := interleaves_flatten w.programs
  have size : (({} : Stack Count).after order).size = (({} : Stack Count).after w.programs.flatten).size := by
    have turns := size_of_interleaves small h
    rw [← size_of_interleaves small serial] at turns
    exact Int.ofNat.inj turns
  have depth : (({} : Stack Count).after order).depth.value =
      (({} : Stack Count).after w.programs.flatten).depth.value := by
    apply Bounded.ext
    rw [depth_of_interleaves small h, depth_of_interleaves small serial, size]
  have isEmpty : (({} : Stack Count).after order).isEmpty = (({} : Stack Count).after w.programs.flatten).isEmpty := by
    rw [Bool.eq_iff_iff, Stack.isEmpty_iff_size, Stack.isEmpty_iff_size, size]
  simp only [totals, run, pushed_of_interleaves small h, pushed_of_interleaves small serial,
    popped_of_interleaves small h, popped_of_interleaves small serial, size, depth, isEmpty]
  by_cases noPops : w.pops = 0
  · rw [left_of_interleaves small h noPops, left_of_interleaves small serial noPops]
  · simp only [if_neg noPops]

end

/-- Whatever the turns that the threads take, the totals are these. -/
theorem totals_of_interleaves (small : w.threads * w.pushes < 2 ^ 63) (h : Interleaves w.programs order) :
    let t := w.run order
    t.pushed = (if 0 < w.threads ∧ 0 < w.pushes then w.threads * w.pushes - 1 else 0) ∧
    t.popped = (if w.pops < w.pushes then w.threads * w.pops else t.pushed) ∧
    (t.size : Int) = t.pushed - t.popped ∧ t.depth.val = t.size ∧ (t.isEmpty = true ↔ t.size = 0) ∧
    (w.pops = 0 → t.left = some ((List.range' 1 t.pushed).map fun n : Nat => (n : Int))) := by
  have pushed := pushed_of_interleaves small h
  have popped := popped_of_interleaves small h
  have size := size_of_interleaves small h
  simp only [run, pushed, popped]
  refine ⟨?_, trivial, size, depth_of_interleaves small h, ?_, ?_⟩
  · split
    · rfl
    · rename_i none
      rcases Nat.eq_zero_or_pos w.threads with zero | some
      · rw [zero, Nat.zero_mul]
      · have zero : w.pushes = 0 := by omega
        rw [zero, Nat.mul_zero]
  · exact Stack.isEmpty_iff_size _
  · intro noPops
    rw [if_pos noPops, left_of_interleaves small h noPops]

theorem totals_of_interleaves_two_threads :
    let w : Workload := ⟨2, 2, 1⟩
    let push (n : Nat) : Command Count := .push (Count.ofInt n)
    let order := [push 2, push 0, push 3, .pop, push 1, .pop]
    w.threads * w.pushes < 2 ^ 63 ∧ Interleaves w.programs order ∧
      (w.run order).pushed = 3 ∧ (w.run order).popped = 2 ∧ ((w.run order).size : Int) = 3 - 2 := by
  intro w push order
  have small : w.threads * w.pushes < 2 ^ 63 := by decide
  have turns : Interleaves w.programs order := by
    change Interleaves [[push 0, push 1, .pop], [push 2, push 3, .pop]] order
    refine @Interleaves.step _ _ 1 _ _ _ rfl ?_
    refine @Interleaves.step _ _ 0 _ _ _ rfl ?_
    refine @Interleaves.step _ _ 1 _ _ _ rfl ?_
    refine @Interleaves.step _ _ 1 _ _ _ rfl ?_
    refine @Interleaves.step _ _ 0 _ _ _ rfl ?_
    refine @Interleaves.step _ _ 0 _ _ _ rfl ?_
    exact .done (by simp)
  obtain ⟨pushed, popped, size, _⟩ := totals_of_interleaves small turns
  rw [pushed] at popped size
  rw [popped] at size
  exact ⟨small, turns, pushed, popped, size⟩

end Workload

end CountedStack
