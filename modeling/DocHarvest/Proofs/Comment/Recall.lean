import DocHarvest.Comment.Recall
import Mathlib.Data.List.Basic

set_option autoImplicit false

namespace DocHarvest

namespace Memo

variable {κ υ : Type}

def ofPairs (seed : List (κ × υ)) : Memo κ υ := ⟨seed.map fun (k, v) => (k, some v)⟩

-- The table after questions that the seed does not answer: they follow it, each once.
def recorded (seed : List (κ × υ)) (f : κ → υ) (asked : List κ) : Memo κ υ :=
  ⟨(ofPairs seed).entries ++ asked.map fun k => (k, some (f k))⟩

theorem keys_recorded (seed : List (κ × υ)) (f : κ → υ) (asked : List κ) :
    (recorded seed f asked).keys = seed.map Prod.fst ++ asked := by
  simp [keys, recorded, ofPairs, Function.comp_def]

variable [BEq κ]

theorem lookup_map_some (seed : List (κ × υ)) (k : κ) :
    (seed.map fun (j, v) => (j, some v)).lookup k = (seed.lookup k).map some := by
  induction seed with
  | nil => rfl
  | cons entry seed ih =>
    obtain ⟨j, v⟩ := entry
    cases same : k == j <;> simp [List.lookup_cons, same, ih]

variable [LawfulBEq κ]

theorem lookup_computed {asked : List κ} {k : κ} (member : k ∈ asked) (f : κ → υ) :
    (asked.map fun j => (j, some (f j))).lookup k = some (some (f k)) := by
  induction asked with
  | nil => cases member
  | cons j asked ih =>
    cases same : k == j with
    | true =>
      have equal : k = j := by simpa using same
      simp [equal]
    | false =>
      have differ : k ≠ j := by simpa using same
      have later : k ∈ asked := by simpa [differ] using member
      simpa [List.lookup_cons, same] using ih later

theorem lookup_eq_none_of_not_mem {entries : List (κ × υ)} {k : κ}
    (absent : k ∉ entries.map Prod.fst) : entries.lookup k = none := by
  rw [List.lookup_eq_none_iff]
  intro entry member
  simpa using fun same : k = entry.1 => absent (same ▸ List.mem_map_of_mem member)

theorem putIn_of_not_mem {entries : List (κ × Option υ)} {k : κ}
    (absent : k ∉ entries.map Prod.fst) (v : Option υ) :
    putIn k v entries = entries ++ [(k, v)] := by
  induction entries with
  | nil => rfl
  | cons entry rest ih =>
    obtain ⟨j, w⟩ := entry
    have apart : k ≠ j ∧ k ∉ rest.map Prod.fst := by simpa using absent
    have differ : (j == k) = false := by simpa using apart.1.symm
    simp [putIn, differ, ih apart.2]

theorem ask_of_known {seed : List (κ × υ)} {asked : List κ} {k : κ}
    (known : k ∈ seed.map Prod.fst ++ asked) (f : κ → υ) :
    (recorded seed f asked).ask f k = ((seed.lookup k).getD (f k), recorded seed f asked) := by
  have found : (recorded seed f asked).get? k = some ((seed.lookup k).getD (f k)) := by
    unfold get? recorded ofPairs
    rw [List.lookup_append, lookup_map_some]
    cases seeded : seed.lookup k with
    | some v => rfl
    | none =>
      have absent : k ∉ seed.map Prod.fst := by
        intro member
        obtain ⟨entry, listed, same⟩ := List.mem_map.mp member
        have differ := List.lookup_eq_none_iff.mp seeded entry listed
        simp [same] at differ
      have later : k ∈ asked := by simpa [absent] using known
      simp [lookup_computed later]
  simp [ask, found]

theorem ask_of_new {seed : List (κ × υ)} {asked : List κ} {k : κ}
    (unknown : k ∉ seed.map Prod.fst ++ asked) (f : κ → υ) :
    (recorded seed f asked).ask f k =
      ((seed.lookup k).getD (f k), recorded seed f (asked ++ [k])) := by
  have absent : k ∉ (recorded seed f asked).entries.map Prod.fst := by
    rwa [← keys_recorded seed f asked] at unknown
  have none_found : (recorded seed f asked).get? k = none := by
    simp [get?, lookup_eq_none_of_not_mem absent]
  have unseeded : seed.lookup k = none :=
    lookup_eq_none_of_not_mem fun member => unknown (List.mem_append_left asked member)
  simp [ask, none_found, unseeded, put, putIn_of_not_mem absent]
  simp [recorded]

theorem askAll_recorded (seed : List (κ × υ)) (f : κ → υ) (asked ks : List κ) :
    askAll f ks (recorded seed f asked) = (ks.map fun k => (seed.lookup k).getD (f k),
      recorded seed f
        (asked ++ (ks.filter fun k => !(seed.map Prod.fst ++ asked).contains k).eraseDups)) := by
  induction ks generalizing asked with
  | nil => simp [askAll]
  | cons k ks ih =>
    by_cases known : k ∈ seed.map Prod.fst ++ asked
    · have passed : (seed.map Prod.fst ++ asked).contains k = true := by simpa using known
      simp only [askAll, ask_of_known known, ih, List.map_cons, List.filter_cons, passed]
      rfl
    · have kept : (seed.map Prod.fst ++ asked).contains k = false := by simpa using known
      have others : (ks.filter fun j => !(seed.map Prod.fst ++ (asked ++ [k])).contains j) =
          (ks.filter fun j => !(seed.map Prod.fst ++ asked).contains j).filter fun j => !j == k := by
        rw [List.filter_filter]
        apply List.filter_congr
        intro j _
        rw [← List.append_assoc, List.contains_append, Bool.not_or, Bool.and_comm]
        simp
      simp only [askAll, ask_of_new known, ih, List.map_cons, List.filter_cons, kept, others]
      simp [List.eraseDups_cons]

end Memo

namespace Comment

variable (s : Settings)

def TailRule.plain (line : Text) : TailRule → Option Annotation
  | .param => (param? s line).map .param
  | .returns => (returns? s line).map .returns

theorem param?_eq_pending (line : Text) :
    param? s line = (pendingParam? s line).map fun x => x.finish (Tail.ofText x.tail) := by
  simp only [pendingParam?, Option.bind_eq_bind, Option.pure_def, Option.map_bind,
    Function.comp_def, Option.map_some]
  rfl

theorem returns?_eq_pending (line : Text) :
    returns? s line = (pendingReturns? s line).map fun x => x.finish (Tail.ofText x.tail) := by
  simp only [pendingReturns?, Option.bind_eq_bind, Option.pure_def, Option.map_bind,
    Function.comp_def, Option.map_some]
  rfl

theorem TailRule.plain_eq_pending (rule : TailRule) (line : Text) :
    rule.plain s line = (rule.pending? s line).map fun x => x.finish (Tail.ofText x.tail) := by
  cases rule with
  | param => simp [plain, pending?, param?_eq_pending, Function.comp_def]
  | returns => simp [plain, pending?, returns?_eq_pending, Function.comp_def]

-- The invariant of the calls: the memo holds readings of tails, and nothing else.
theorem TailRule.readWith_recorded (rule : TailRule) (line : Text) (asked : List Text) :
    ∃ more, rule.readWith s line (.recorded [] Tail.ofText asked) =
      (rule.plain s line, .recorded [] Tail.ofText (asked ++ more)) := by
  rw [plain_eq_pending, readWith]
  cases rule.pending? s line with
  | none => exact ⟨[], by simp⟩
  | some x =>
    by_cases known : x.tail ∈ ([] : List (Text × Tail)).map Prod.fst ++ asked
    · exact ⟨[], by simp [Memo.ask_of_known known]⟩
    · exact ⟨[x.tail], by simp [Memo.ask_of_new known]⟩

theorem readAllWith_recorded (calls : List (TailRule × Text)) (asked : List Text) :
    ∃ more, readAllWith s calls (.recorded [] Tail.ofText asked) =
      (calls.map fun (rule, line) => rule.plain s line,
        .recorded [] Tail.ofText (asked ++ more)) := by
  induction calls generalizing asked with
  | nil => exact ⟨[], by simp [readAllWith]⟩
  | cons call calls ih =>
    obtain ⟨more, first⟩ := call.1.readWith_recorded s call.2 asked
    obtain ⟨rest, later⟩ := ih (asked ++ more)
    exact ⟨more ++ rest, by simp [readAllWith, first, later]⟩

/-- A reader with a memo answers each tail as if it were the first: by the seed, or else by reading
it. What the seed recorded stays in front, and the tails it lacks follow in the order in which they
were first read. With an empty seed, a rule says of a line what it says without a memo, whatever
lines the rules read before. -/
theorem memo_of_tails_never_shows (seed : List (Text × Tail)) (tails : List Text) (s : Settings) :
    let fresh := (tails.filter fun t => !(seed.map Prod.fst).contains t).eraseDups
    let read := Memo.askAll Tail.ofText tails (.ofPairs seed)
    read.1 = tails.map (fun t => (seed.lookup t).getD (Tail.ofText t)) ∧
    read.2.entries = (Memo.ofPairs seed).entries ++ fresh.map (fun t => (t, some (Tail.ofText t))) ∧
    read.2.keys = seed.map Prod.fst ++ fresh ∧
    ∀ (history : List (TailRule × Text)) (rule : TailRule) (line : Text),
      (rule.readWith s line (readAllWith s history .empty).2).1 = rule.plain s line := by
  intro fresh read
  have start : Memo.recorded seed Tail.ofText [] = .ofPairs seed := by simp [Memo.recorded]
  have run : read = (tails.map fun t => (seed.lookup t).getD (Tail.ofText t),
      .recorded seed Tail.ofText fresh) := by
    have asked := Memo.askAll_recorded seed Tail.ofText [] tails
    simpa [start, read, fresh] using asked
  rw [run]
  refine ⟨rfl, rfl, Memo.keys_recorded seed Tail.ofText fresh, ?_⟩
  intro history rule line
  obtain ⟨more, before⟩ := readAllWith_recorded s history []
  obtain ⟨_, last⟩ := rule.readWith_recorded s line ([] ++ more)
  have fresh_memo : Memo.recorded [] Tail.ofText [] = .empty := rfl
  rw [← fresh_memo, before, last]

end Comment

end DocHarvest
