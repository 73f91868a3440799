import CountedStack.Pool
import CountedStack.Proofs.Balance

/-! Where no thread takes off more than it has put on, no pop fails, although threads take each other's items. -/

namespace CountedStack.Pool

variable {α : Type} [Item α]

def flat (program : List (Step α)) : List (Command α) := program.flatMap Step.commands

/-- A call, or a block of calls that does not throw. -/
def Step.isLocked : Step α → Bool
  | .run _ | .block _ => true
  | _ => false

def Answer.each : Answer α → List (CountedStack.Answer α)
  | .ran a => [a]
  | .block as => as
  | _ => []

/-- A thread's program that neither clears the stack nor sets the counter, and that at no point has
popped more often than it has put an item on top. -/
structure SelfSufficient (program : List (Step α)) : Prop where
  locked : ∀ step ∈ program, step.isLocked = true
  kept : ∀ c ∈ flat program, c.isClear = false
  unadjusted : ∀ c ∈ flat program, c.adjusts = false
  ahead : ∀ part, part <+: flat program → popCount part ≤ (placed part).length

theorem perform_locked (p : Pool α) {step : Step α} (locked : step.isLocked = true) :
    (p.perform step).state.active = p.active.after step.commands ∧
      (p.perform step).answer.each = (p.active.outcomes step.commands).map (·.answer) := by
  cases step with
  | run c => exact ⟨p.active_update _, rfl⟩
  | block cs => exact ⟨p.active_update _, rfl⟩
  | _ => cases locked

theorem active_after (p : Pool α) {steps : List (Step α)} (locked : ∀ step ∈ steps, step.isLocked = true) :
    (p.after steps).active = p.active.after (flat steps) := by
  induction steps generalizing p with
  | nil => rfl
  | cons step steps ih =>
    obtain ⟨first, others⟩ := List.forall_mem_cons.mp locked
    have rest := ih (p.perform step).state others
    rw [(p.perform_locked first).1, ← Stack.after_append] at rest
    exact rest

theorem pops_succeed_of_floor (p : Pool α) {steps : List (Step α)}
    (locked : ∀ step ∈ steps, step.isLocked = true) (kept : ∀ c ∈ flat steps, c.isClear = false)
    (floor : ∀ part, part <+: flat steps → 0 ≤ p.active.size + gain part) :
    List.Forall₂ (fun step o =>
        List.Forall₂ (fun c a => c.isPop = true → a.item?.isSome = true) step.commands o.answer.each)
      steps (p.outcomes steps) := by
  induction steps generalizing p with
  | nil => exact .nil
  | cons step steps ih =>
    obtain ⟨first, others⟩ := List.forall_mem_cons.mp locked
    obtain ⟨here, later⟩ := List.forall_mem_append.mp kept
    obtain ⟨state, answers⟩ := p.perform_locked first
    have start : ∀ part, part <+: step.commands → 0 ≤ p.active.size + gain part :=
      fun part cut => floor part (cut.trans (List.prefix_append _ _))
    refine .cons ?_ (ih _ others later ?_)
    · rw [answers, List.forall₂_map_right_iff]
      exact p.active.pops_succeed_of_floor here start
    · -- what comes later starts from the items that the first step leaves
      intro part cut
      have whole := floor (step.commands ++ part) ((List.prefix_append_right_inj _).mpr cut)
      rw [gain_append] at whole
      rw [state, p.active.size_after_of_floor here start]
      omega

variable {programs : List (List (Step α))} {order : List (Step α)}

omit [Item α] in
theorem forall_mem_flat_of_interleaves (h : Interleaves programs order) {P : Command α → Prop}
    (own : ∀ program ∈ programs, ∀ c ∈ flat program, P c) : ∀ c ∈ flat order, P c := by
  intro c taken
  obtain ⟨commands, present, member⟩ := (h.flatMap Step.commands).mem taken
  obtain ⟨program, among, rfl⟩ := List.mem_map.mp present
  exact own program among c member

theorem flat_floor_of_interleaves (h : Interleaves programs order)
    (sufficient : ∀ program ∈ programs, SelfSufficient program) {part : List (Command α)}
    (cut : part <+: flat order) : 0 ≤ gain part := by
  refine floor_of_interleaves (h.flatMap Step.commands) ?_ cut
  intro xs ys member
  obtain ⟨program, present, whole⟩ := List.mem_map.mp member
  have inside : xs <+: flat program := ⟨ys, whole.symm⟩
  have ahead := (sufficient program present).ahead xs inside
  unfold gain
  omega

theorem gain_flat_of_interleaves (h : Interleaves programs order) :
    gain (flat order) = (programs.map fun program => gain (flat program)).sum := by
  have short := h.flatMap Step.commands
  rw [flat, gain_perm short.perm, gain_flatten, List.map_map]
  rfl

/-- Whatever turns the threads take on a new stack, all their pops answer an item. At every point the
number of items is what the threads have put on and taken off until then, and the depth is the same,
unless there were once more items than the counter can count. -/
theorem pops_succeed_of_interleaves {settings : Settings} {p : Pool α} (fresh : settings.build = .ok p.active)
    (h : Interleaves programs order) (sufficient : ∀ program ∈ programs, SelfSufficient program) :
    List.Forall₂ (fun step o =>
        List.Forall₂ (fun c a => c.isPop = true → a.item?.isSome = true) step.commands o.answer.each)
      order (p.outcomes order) ∧
    ∀ before rest, before ++ rest = order →
      ∃ halves : List (List (Step α) × List (Step α)), programs = halves.map (fun q => q.1 ++ q.2) ∧
        Interleaves (halves.map Prod.fst) before ∧ Interleaves (halves.map Prod.snd) rest ∧
        let s := (p.after before).active
        (s.size : Int) = (halves.map fun q => gain (flat q.1)).sum ∧
          ((∀ part, part <+: flat before → (p.active.after part).size < 2 ^ 63) →
            s.depth.value.val = s.size) := by
  have new := Settings.build_eq_ok fresh
  have empty : (p.active.size : Int) = 0 := by rw [new]; rfl
  have locked : ∀ step ∈ order, step.isLocked = true := by
    intro step taken
    obtain ⟨program, present, own⟩ := h.mem taken
    exact (sufficient program present).locked step own
  have kept : ∀ c ∈ flat order, c.isClear = false :=
    forall_mem_flat_of_interleaves h fun program present => (sufficient program present).kept
  have unadjusted : ∀ c ∈ flat order, c.adjusts = false :=
    forall_mem_flat_of_interleaves h fun program present => (sufficient program present).unadjusted
  have floor : ∀ part, part <+: flat order → 0 ≤ p.active.size + gain part := by
    intro part cut
    have := flat_floor_of_interleaves h sufficient cut
    omega
  refine ⟨p.pops_succeed_of_floor locked kept floor, ?_⟩
  rintro before rest rfl
  obtain ⟨halves, whole, first, second⟩ := h.split
  refine ⟨halves, whole, first, second, ?_⟩
  intro s
  have opened : flat (before ++ rest) = flat before ++ flat rest := List.flatMap_append
  rw [opened] at kept unadjusted floor
  have run : s = p.active.after (flat before) := p.active_after (List.forall_mem_append.mp locked).1
  constructor
  · have size := p.active.size_after_of_floor (List.forall_mem_append.mp kept).1
      fun part cut => floor part (cut.trans (List.prefix_append _ _))
    rw [run, size, empty, Int.zero_add, gain_flat_of_interleaves first, List.map_map]
    rfl
  · intro bounded
    have level : p.active.depth.value.val = p.active.size := by rw [new]; rfl
    rw [run]
    exact p.active.depth_eq_size level (List.forall_mem_append.mp unadjusted).1 bounded

theorem pops_succeed_of_interleaves_two_threads :
    let p : Pool Count := start
    let push (n : Int) : Command Count := .push (Count.ofInt n)
    let first := [.run (push 5), .block [push 6, .pop, .top], .run .pop]
    let second := [.run (push 0), .run (.offer (some (Count.ofInt 0))), .run .pop]
    let before := [.run (push 0), .run (push 5), .run (.offer (some (Count.ofInt 0))),
      .block [push 6, .pop, .top]]
    let rest := [.run .pop, .run .pop]
    ({} : Settings).build = .ok p.active ∧ Interleaves [first, second] (before ++ rest) ∧
      (∀ program ∈ [first, second], SelfSufficient program) ∧
      (∀ part, part <+: flat before → (p.active.after part).size < 2 ^ 63) ∧
      List.Forall₂ (fun step o =>
          List.Forall₂ (fun c a => c.isPop = true → a.item?.isSome = true) step.commands o.answer.each)
        (before ++ rest) (p.outcomes (before ++ rest)) ∧
      (p.after before).active.depth.value.val = (p.after before).active.size ∧
      (p.after before).active.size = 2 := by
  intro p push first second before rest
  have fresh : ({} : Settings).build = .ok p.active := rfl
  have turns : Interleaves [first, second] (before ++ rest) := by
    refine @Interleaves.step _ _ 1 _ _ _ rfl ?_
    refine @Interleaves.step _ _ 0 _ _ _ rfl ?_
    refine @Interleaves.step _ _ 1 _ _ _ rfl ?_
    refine @Interleaves.step _ _ 0 _ _ _ rfl ?_
    refine @Interleaves.step _ _ 0 _ _ _ rfl ?_
    refine @Interleaves.step _ _ 1 _ _ _ rfl ?_
    exact .done (by simp)
  have sufficient : ∀ program ∈ [first, second], SelfSufficient program := by
    have ahead : ∀ program ∈ [first, second], ∀ part ∈ (flat program).inits,
        popCount part ≤ (placed part).length := by decide
    have locked : ∀ program ∈ [first, second], ∀ step ∈ program, step.isLocked = true := by decide
    have modest : ∀ program ∈ [first, second], ∀ c ∈ flat program,
        c.isClear = false ∧ c.adjusts = false := by decide
    intro program member
    exact ⟨locked program member, fun c inside => (modest program member c inside).1,
      fun c inside => (modest program member c inside).2,
      fun part cut => ahead program member part ((List.mem_inits part _).mpr cut)⟩
  have bounded : ∀ part, part <+: flat before → (p.active.after part).size < 2 ^ 63 := by
    have each : ∀ part ∈ (flat before).inits, (p.active.after part).size < 2 ^ 63 := by decide
    exact fun part cut => each part ((List.mem_inits part _).mpr cut)
  obtain ⟨pops, points⟩ := pops_succeed_of_interleaves fresh turns sufficient
  obtain ⟨_, _, _, _, _, depth⟩ := points before rest rfl
  exact ⟨fresh, turns, sufficient, bounded, pops, depth bounded, by decide⟩

end CountedStack.Pool
