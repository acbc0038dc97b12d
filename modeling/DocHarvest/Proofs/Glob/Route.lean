import DocHarvest.Proofs.Files.Leads
import DocHarvest.Proofs.Glob.Literal

set_option autoImplicit false

namespace DocHarvest.Glob

section Cancelling

-- What is left of `names` once two dots have cancelled the names before them.
structure Reduced (names left : List Text) : Prop where
  same : ∀ p : Path, p.walk left = p.walk names
  turns_first : left.Pairwise fun earlier later => Turns later → Turns earlier
  literal : ∀ name ∈ left, IsLiteral name
  rooted : left.head? = some [] ↔ names.head? = some []

variable {names left : List Text}

theorem isLiteral_dot : IsLiteral ['.'] := isLiteral_of_not_special (by simp [special])

theorem isCancelled_iff {name : Text} (literal : IsLiteral name) :
    isCancelled name = true ↔ ¬ Turns name := by
  simp [isCancelled, literal.ne_starStar, and_assoc]

theorem step_of_not_turns {p : Path} {name : Text} (straight : ¬ Turns name) :
    p.step name = p.child name := by
  simp only [not_or] at straight
  simp [Path.step, straight]

theorem Reduced.all_turn (reduced : Reduced names left)
    (last_turns : ∀ last ∈ left.getLast?, Turns last) :
    ∀ name ∈ left, Turns name := by
  rcases List.eq_nil_or_concat' left with rfl | ⟨front, last, rfl⟩
  · simp
  · have turns : Turns last := last_turns last (by simp)
    intro name member
    rcases List.mem_append.mp member with earlier | single
    · exact (List.pairwise_append.mp reduced.turns_first).2.2 name earlier last (by simp) turns
    · obtain rfl : name = last := by simpa using single
      exact turns

theorem Reduced.push (reduced : Reduced names left) {name : Text} (shown : name ≠ [])
    (literal : IsLiteral name) (above : Turns name → ∀ last ∈ left.getLast?, Turns last) :
    Reduced (names ++ [name]) (left ++ [name]) where
  same p := by rw [Path.walk_append, Path.walk_append, reduced.same]
  turns_first := by
    refine List.pairwise_append.mpr ⟨reduced.turns_first, List.pairwise_singleton _ _, ?_⟩
    intro earlier member later single turns
    obtain rfl : later = name := by simpa using single
    exact reduced.all_turn (above turns) earlier member
  literal := by simpa [or_imp, forall_and] using ⟨reduced.literal, literal⟩
  rooted := by
    have kept := reduced.rooted
    cases left <;> cases names <;> simp_all

theorem Reduced.pop {last : Text} (reduced : Reduced names (left ++ [last]))
    (straight : ¬ Turns last) : Reduced (names ++ [['.', '.']]) left where
  same p := by
    have walked : (p.walk left).child last = p.walk names := by
      rw [← reduced.same p, Path.walk_append]
      exact (step_of_not_turns straight).symm
    have up (q : Path) : q.walk [['.', '.']] = q.parent := by simp [Path.walk, Path.step]
    rw [Path.walk_append, ← walked, up, Path.parent_child]
  turns_first := (List.pairwise_append.mp reduced.turns_first).1
  literal name member := reduced.literal name (by simp [member])
  rooted := by
    have kept := reduced.rooted
    cases left <;> cases names <;> simp_all

-- A dot may stand where all names were cancelled.
theorem Reduced.dot (reduced : Reduced names []) : Reduced names [['.']] where
  same := reduced.same
  turns_first := List.pairwise_singleton _ _
  literal := by simpa using isLiteral_dot
  rooted := by simpa using reduced.rooted

theorem cancelUps_of_no_up (kept : List Text) {ys : List Text} (no_up : ['.', '.'] ∉ ys) :
    cancelUps kept ys = kept.reverse ++ ys := by
  induction ys generalizing kept with
  | nil => simp [cancelUps]
  | cons y ys ih =>
    have down : y ≠ ['.', '.'] := fun same => no_up (by simp [same])
    have rest := ih (y :: kept) fun member => no_up (by simp [member])
    cases kept with
    | nil => simpa [cancelUps] using rest
    | cons last kept => simpa [cancelUps, down] using rest

theorem Reduced.cancelUps {kept xs ys : List Text} (reduced : Reduced names kept.reverse)
    (shown : ∀ name ∈ xs, name ≠ [] ∧ name ≠ ['.']) (literal : ∀ name ∈ xs, IsLiteral name)
    (no_up : ['.', '.'] ∉ ys) :
    ∃ left, cancelUps kept (xs ++ ys) = left ++ ys ∧ Reduced (names ++ xs) left := by
  induction xs generalizing names kept with
  | nil => exact ⟨kept.reverse, cancelUps_of_no_up kept no_up, by simpa using reduced⟩
  | cons x xs ih =>
    have x_shown := shown x (by simp)
    have x_literal := literal x (by simp)
    have run {ks : List Text} (reduced : Reduced (names ++ [x]) ks.reverse) :
        ∃ left, Glob.cancelUps ks (xs ++ ys) = left ++ ys ∧ Reduced (names ++ x :: xs) left := by
      simpa using ih reduced (fun name member => shown name (by simp [member]))
        (fun name member => literal name (by simp [member]))
    cases kept with
    | nil =>
      have pushed : Reduced (names ++ [x]) [x].reverse := reduced.push x_shown.1 x_literal (by simp)
      exact run pushed
    | cons last kept =>
      have cancelled_iff := isCancelled_iff (reduced.literal last (by simp))
      rw [List.reverse_cons] at reduced
      rw [List.cons_append, Glob.cancelUps]
      split
      · next cancels =>
        obtain ⟨rfl, cancelled⟩ : x = ['.', '.'] ∧ isCancelled last = true := by simpa using cancels
        have popped := reduced.pop (cancelled_iff.mp cancelled)
        apply run
        split
        · next bare =>
          obtain ⟨rfl, _⟩ : kept = [] ∧ _ := by simpa using bare
          exact popped.dot
        · exact popped
      · next stays =>
        apply run
        have above : Turns x → Turns last := by
          rintro (rfl | rfl | rfl)
          · exact absurd rfl x_shown.1
          · exact absurd rfl x_shown.2
          · by_contra straight
            exact stays (by simp [cancelled_iff.mpr straight])
        simpa using reduced.push x_shown.1 x_literal (by simpa using above)

end Cancelling

section Splitting

end Splitting

section Squeezing

end Squeezing

section Following

variable {tree : FileTree} {base : Path}

def Route.files (tree : FileTree) (base : Path) (route : Route) : List Path :=
  if route.absolute then follow tree false .root route.segments
  else follow tree true base route.segments

end Following

end DocHarvest.Glob
