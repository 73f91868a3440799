import CountedStack.Workload

namespace CountedStack

variable {σ τ : Type} {programs before after : List (List σ)} {rest order : List σ}

theorem Interleaves.uncons {x : σ} (h : Interleaves programs (x :: order)) :
    ∃ before rest after, programs = before ++ (x :: rest) :: after ∧
      Interleaves (before ++ rest :: after) order := by
  cases h with
  | @step _ thread _ rest _ first schedule =>
    obtain ⟨bound, _⟩ := List.getElem?_eq_some_iff.mp first
    obtain ⟨before, after, same, place, changed⟩ := List.exists_of_set bound
    rw [changed] at schedule
    refine ⟨before, rest, after, ?_, schedule⟩
    have head : programs[thread] = x :: rest := (List.getElem?_eq_some_iff.mp first).2
    rw [← head]
    exact same

theorem Interleaves.cons (h : Interleaves (before ++ rest :: after) order) (x : σ) :
    Interleaves (before ++ (x :: rest) :: after) (x :: order) := by
  refine @Interleaves.step _ _ before.length x rest order ?_ ?_
  · simp
  · simpa using h

theorem Interleaves.append (h : Interleaves (before ++ rest :: after) order) (xs : List σ) :
    Interleaves (before ++ (xs ++ rest) :: after) (xs ++ order) := by
  induction xs with
  | nil => exact h
  | cons x xs ih => exact ih.cons x

theorem Interleaves.perm (h : Interleaves programs order) : order.Perm programs.flatten := by
  induction order generalizing programs with
  | nil =>
    cases h with
    | done none =>
      have empty : programs.flatten = [] := List.flatten_eq_nil_iff.mpr none
      rw [empty]
  | cons x order ih =>
    obtain ⟨before, rest, after, rfl, schedule⟩ := h.uncons
    have moved : (before ++ (x :: rest) :: after).flatten.Perm (x :: (before ++ rest :: after).flatten) := by
      simp only [List.flatten_append, List.flatten_cons, List.cons_append]
      exact List.perm_middle
    exact ((ih schedule).cons x).trans moved.symm

theorem Interleaves.mem (h : Interleaves programs order) {x : σ} (member : x ∈ order) :
    ∃ program ∈ programs, x ∈ program :=
  List.mem_flatten.mp (h.perm.mem_iff.mp member)

/-- A schedule that is cut in two cuts every program in two. -/
theorem Interleaves.split {xs ys : List σ} (h : Interleaves programs (xs ++ ys)) :
    ∃ halves : List (List σ × List σ), programs = halves.map (fun p => p.1 ++ p.2) ∧
      Interleaves (halves.map Prod.fst) xs ∧ Interleaves (halves.map Prod.snd) ys := by
  induction xs generalizing programs with
  | nil =>
    refine ⟨programs.map fun p => ([], p), ?_, .done ?_, ?_⟩
    · simp [Function.comp_def]
    · simp
    · simpa [Function.comp_def] using h
  | cons x xs ih =>
    obtain ⟨before, rest, after, rfl, schedule⟩ := h.uncons
    obtain ⟨halves, whole, first, second⟩ := ih schedule
    obtain ⟨left, others, rfl, rfl, tail⟩ := List.append_eq_map_iff.mp whole
    obtain ⟨p, right, rfl, rfl, rfl⟩ := List.map_eq_cons_iff.mp tail
    refine ⟨left ++ (x :: p.1, p.2) :: right, by simp, ?_, by simpa using second⟩
    simp only [List.map_append, List.map_cons] at first ⊢
    exact first.cons x

theorem Interleaves.flatMap (h : Interleaves programs order) (f : σ → List τ) :
    Interleaves (programs.map (·.flatMap f)) (order.flatMap f) := by
  induction order generalizing programs with
  | nil =>
    cases h with
    | done none =>
      refine .done ?_
      intro p member
      obtain ⟨program, present, rfl⟩ := List.mem_map.mp member
      rw [none program present, List.flatMap_nil]
  | cons x order ih =>
    obtain ⟨before, rest, after, rfl, schedule⟩ := h.uncons
    have short := ih schedule
    simp only [List.map_append, List.map_cons, List.flatMap_cons] at short ⊢
    exact short.append (f x)

end CountedStack
