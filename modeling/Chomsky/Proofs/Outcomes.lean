import Chomsky.Command.Run
import Chomsky.Proofs.Acceptance
import Chomsky.Proofs.Batches
import Chomsky.Proofs.Queries

/-!
# What a run writes

Here the lines of a run are written out once more, with the words of every error
(`failure_coloured`). A run that cannot build its grammar writes the lines of the failed definitions
and nothing else. Any other run is put together from parts that do not depend on each other: the
answer to each word (`Answers`) is the one the word gets in a run of its own, and words are
generated, or one error is, whatever the answers are (`Generates`). Every part counts as failed
exactly if it writes an error (`Candid`), so the run does as well (`Arguments.run_outcome`).
-/

namespace Chomsky

namespace Outcome

variable {o o' : Outcome} {parts : List Outcome}

/-! ## Parts in a row -/

@[simp] theorem nothing_followedBy (o : Outcome) : nothing.followedBy o = o := by
  simp [nothing, followedBy]

@[simp] theorem followedBy_nothing (o : Outcome) : o.followedBy nothing = o := by
  simp [nothing, followedBy]

theorem followedBy_assoc (a b c : Outcome) :
    (a.followedBy b).followedBy c = a.followedBy (b.followedBy c) := by
  simp [followedBy, String.append_assoc, Bool.or_assoc]

theorem foldl_followedBy (a : Outcome) (parts : List Outcome) :
    parts.foldl followedBy a = a.followedBy (all parts) := by
  induction parts generalizing a with
  | nil => exact (followedBy_nothing a).symm
  | cons o rest ih =>
    rw [all, List.foldl_cons, List.foldl_cons, ih, ih, nothing_followedBy, followedBy_assoc]

theorem all_cons (o : Outcome) (rest : List Outcome) :
    all (o :: rest) = o.followedBy (all rest) := by
  rw [all, List.foldl_cons, foldl_followedBy, nothing_followedBy]

theorem stdout_all (parts : List Outcome) :
    (all parts).stdout = String.join (parts.map (·.stdout)) := by
  induction parts with
  | nil => rfl
  | cons o rest ih => rw [all_cons, List.map_cons, String.join_cons, ← ih, followedBy]

theorem stderr_all (parts : List Outcome) :
    (all parts).stderr = String.join (parts.map (·.stderr)) := by
  induction parts with
  | nil => rfl
  | cons o rest ih => rw [all_cons, List.map_cons, String.join_cons, ← ih, followedBy]

theorem stdout_all_eq_empty (h : ∀ o ∈ parts, o.stdout = "") : (all parts).stdout = "" := by
  induction parts with
  | nil => rfl
  | cons o rest ih =>
    rw [List.forall_mem_cons] at h
    rw [all_cons, followedBy, h.1, ih h.2, String.append_empty]

/-! ## Failed parts -/

/-- Whether an outcome counts as failed exactly if something is written as an error. -/
def Candid (o : Outcome) : Prop := o.failed = true ↔ o.stderr ≠ ""

theorem candid_nothing : nothing.Candid := by simp [Candid, nothing]

theorem candid_output (text : String) : (output text).Candid := by simp [Candid, output]

theorem Candid.followedBy (h : o.Candid) (h' : o'.Candid) : (o.followedBy o').Candid := by
  unfold Candid at h h' ⊢
  simp only [Outcome.followedBy, Bool.or_eq_true, h, h', ne_eq, String.append_eq_empty_iff]
  exact not_and_or.symm

theorem candid_all (h : ∀ o ∈ parts, o.Candid) : (all parts).Candid := by
  induction parts with
  | nil => exact candid_nothing
  | cons o rest ih =>
    rw [List.forall_mem_cons] at h
    rw [all_cons]
    exact h.1.followedBy (ih h.2)

theorem Candid.status_iff (h : o.Candid) : o.status = 1 ↔ o.stderr ≠ "" := by
  unfold Candid at h
  rw [status, ← h]
  split_ifs <;> simp_all

end Outcome

/-! ## Lines -/

/-- The line of a verdict. -/
def verdictLine (word : String) (derived : Bool) : String :=
  word ++ ": " ++ (if derived then "accepted" else "rejected") ++ "\n"

/-- The line of an error: its place in brackets in bold red, and what is said about it in bold. -/
def errorLine (place said : String) : String :=
  "\x1b[31;49;1m[" ++ place ++ "]\x1b[39;49;1m  " ++ said ++ "\x1b[0m\n"

/-- How a part of the command line is named: the argument, and a number for a part of it. -/
def placeName (l : Location) : String :=
  if l.position = 0 then l.argument else l.argument ++ " #" ++ toString l.position

/-- What is said about a definition that fails. -/
def DefinitionError.wording : DefinitionError → String
  | .malformed text => "Expected `LHS=RHS[|RHS...]`, got `" ++ text ++ "`"
  | .rejected (.invalidSymbol c) => "`" ++ c.toString ++ "` is not a valid new symbol"
  | .rejected (.unknownSymbol c) => "`" ++ c.toString ++ "` is not a declared nonterminal"
  | .rejected (.invalidProduction lhs rhs) =>
    "`" ++ lhs.toString ++ "::=" ++ rhs
      ++ "` is not in Chomsky normal form over the declared symbols"
  | .rejected (.duplicateProduction lhs rhs) =>
    "`" ++ lhs.toString ++ "::=" ++ rhs ++ "` is already defined"

/-- What is said about a word that cannot be asked about. -/
def QueryError.wording : QueryError → String
  | .emptyGrammar => "The grammar has no terminals or no productions"
  | .noStartSymbol => "The grammar has no start symbol"
  | .invalidWord c => "`" ++ c.toString ++ "` is not a terminal of the grammar"

/-- What is said if no word is generated. -/
def GenerateError.wording : GenerateError → String
  | .emptyGrammar => "The grammar has no terminals or no productions"
  | .noStartSymbol => "The grammar has no start symbol"
  | .unproductive c => "`" ++ c.toString ++ "` never derives a word"

/-- What a single error writes. -/
def errorOutcome (place said : String) : Outcome := ⟨"", errorLine place said, true⟩

theorem toString_definitionError (e : DefinitionError) : toString e = e.wording := by
  rcases e with _ | _ | _ | _ | _ <;> rfl

theorem toString_queryError (e : QueryError) : toString e = e.wording := by
  cases e <;> rfl

theorem toString_generateError (e : GenerateError) : toString e = e.wording := by
  cases e <;> rfl

theorem failure_coloured {ε : Type} [ToString ε] (l : Location) (e : ε) :
    Outcome.failure (Located.coloured ⟨l, e⟩) = errorOutcome (placeName l) (toString e) := by
  have hplace : l.text = placeName l := rfl
  have hend : "\x1b[0m" ++ "\n" = "\x1b[0m\n" := rfl
  simp only [Outcome.failure, errorOutcome, errorLine, Located.coloured, ← hplace, ← hend,
    ← String.append_assoc]
  rfl

theorem candid_errorOutcome (place said : String) : (errorOutcome place said).Candid := by
  simp [Outcome.Candid, errorOutcome, errorLine, String.append_eq_empty_iff]

/-! ## Words -/

/-- What is written for the word at a position if it cannot be asked about. -/
def refusalOutcome (position : Nat) (e : QueryError) : Outcome :=
  errorOutcome ("word #" ++ toString position) e.wording

/-- What a run writes for the word at a position: the verdict, which is exact, and the table if that
is asked for; or the reason why there is none, with the position. -/
inductive Grammar.Answers (g : Grammar) (withTable : Bool) (word : String) (position : Nat) :
    Outcome → Prop
  | verdict {start : Char} {derived : Bool} (asked : ∀ e, ¬ g.Refuses word.toList e)
    (declared : g.start = some start) (exact : derived = true ↔ g.Derives start word.toList) :
    Answers g withTable word position
      ⟨verdictLine word derived ++ if withTable then (g.table word.toList).text else "", "", false⟩
  | error {e : QueryError} (refused : g.Refuses word.toList e) :
    Answers g withTable word position (refusalOutcome position e)

/-- Whether outcomes for a word at two positions are the same up to these positions: they report the
same error, each at its own position, or do not differ at all. -/
def Outcome.SameUpTo (i j : Nat) (o o' : Outcome) : Prop :=
  o = o' ∨ ∃ e, o = refusalOutcome i e ∧ o' = refusalOutcome j e

section Words

variable {g : Grammar} {word : String} {position : Nat}

theorem wordOutcome_of_refuses {e : QueryError} (h : g.Refuses word.toList e) (withTable : Bool)
    (hp : 0 < position) : wordOutcome g withTable word position = refusalOutcome position e := by
  have hplace : placeName ⟨"word", position⟩ = "word #" ++ toString position :=
    if_neg hp.ne'
  rw [wordOutcome, Grammar.checkWord_of_error (Grammar.checkQuery_eq_error_iff.2 h)]
  calc Outcome.failure (Located.coloured ⟨⟨"word", position⟩, e⟩)
      = errorOutcome (placeName ⟨"word", position⟩) (toString e) := failure_coloured _ e
    _ = refusalOutcome position e := by rw [hplace, toString_queryError, refusalOutcome]

theorem wordOutcome_of_asked {start : Char} (h : g.checkQuery word.toList = .ok start)
    (withTable : Bool) (position : Nat) : wordOutcome g withTable word position =
      ⟨verdictLine word ((g.table word.toList).derivesWord start)
        ++ if withTable then (g.table word.toList).text else "", "", false⟩ := by
  rw [wordOutcome, Grammar.checkWord_of_ok h]
  rfl

theorem Grammar.Consistent.answers (hg : g.Consistent) (withTable : Bool) (word : String)
    (hp : 0 < position) :
    g.Answers withTable word position (wordOutcome g withTable word position) := by
  rcases hq : g.checkQuery word.toList with e | start
  · have hrefused := checkQuery_eq_error_iff.1 hq
    rw [wordOutcome_of_refuses hrefused withTable hp]
    exact .error hrefused
  · have hasked : ∀ e, ¬ g.Refuses word.toList e := by simp [← checkQuery_eq_error_iff, hq]
    rw [wordOutcome_of_asked hq]
    exact .verdict hasked (checkQuery_eq_ok_iff.1 hq).2.2.1 hg.derivesWord_table

theorem wordOutcome_sameUpTo (g : Grammar) (withTable : Bool) (word : String) {i j : Nat}
    (hi : 0 < i) (hj : 0 < j) :
    (wordOutcome g withTable word i).SameUpTo i j (wordOutcome g withTable word j) := by
  rcases hq : g.checkQuery word.toList with e | start
  · have hrefused := Grammar.checkQuery_eq_error_iff.1 hq
    exact .inr ⟨e, wordOutcome_of_refuses hrefused withTable hi,
      wordOutcome_of_refuses hrefused withTable hj⟩
  · rw [wordOutcome_of_asked hq, wordOutcome_of_asked hq]
    exact .inl rfl

theorem Grammar.Answers.candid {withTable : Bool} {o : Outcome}
    (h : g.Answers withTable word position o) : o.Candid := by
  cases h with
  | verdict => simp [Outcome.Candid]
  | error => exact candid_errorOutcome _ _

end Words

/-! ## Generated words -/

open Generation

/-- What a run writes when so many words are to be generated: the words, one after the other, as
many as asked for and each derived from the start symbol; or one reason why there are none, if any
are asked for. -/
inductive Grammar.Generates (g : Grammar) (amount maxDepth : Nat) (source : Source) : Outcome → Prop
  | words {words : List Word} {rest : Source}
    (yields : Yields (g.generateMany amount maxDepth) source words rest)
    (length : words.length = amount)
    (derived : ∀ word ∈ words, ∃ start, g.start = some start ∧ g.Derives start word) :
    Generates g amount maxDepth source
      ⟨String.join (words.map fun word => String.ofList word ++ "\n"), "", false⟩
  | error {e : GenerateError} (asked : amount ≠ 0) (barred : g.Bars e) :
    Generates g amount maxDepth source (errorOutcome "--generate" e.wording)

section Generated

variable {g : Grammar} {amount maxDepth : Nat} {source : Source} {o : Outcome}

theorem Grammar.Consistent.generates (hg : g.Consistent)
    (h : generationOutcome g amount maxDepth source = some o) :
    g.Generates amount maxDepth source o := by
  unfold generationOutcome at h
  split at h
  · cases h
  · rename_i words rest hrun
    cases h
    have hy : Yields (g.generateMany amount maxDepth) source words rest := hrun
    obtain ⟨trees, htrees, rfl⟩ := yields_generateMany_iff.1 hy
    obtain ⟨hlen, hall⟩ := trees_of_growMany hg htrees
    refine .words hy (by rw [List.length_map, hlen]) fun word hw => ?_
    obtain ⟨t, ht, rfl⟩ := List.mem_map.1 hw
    exact ⟨t.symbol, (hall t ht).2, t, (hall t ht).1, rfl, rfl⟩
  · rename_i e rest hrun
    cases h
    have hf : Fails (g.generateMany amount maxDepth) source e rest := hrun
    obtain ⟨hpos, hbars, -⟩ :=
      (fails_growMany_iff hg.nonterminals_nodup).1 (fails_generateMany_iff.1 hf)
    rw [failure_coloured, toString_generateError]
    exact .error hpos.ne' hbars

theorem Grammar.Generates.candid (h : g.Generates amount maxDepth source o) : o.Candid := by
  cases h with
  | words => simp [Outcome.Candid]
  | error => exact candid_errorOutcome _ _

theorem Grammar.Consistent.generationOutcome_ne_none (hg : g.Consistent) (hs : source.Steady) :
    generationOutcome g amount maxDepth source ≠ none := by
  unfold generationOutcome
  split
  · rename_i hrun
    rcases hg.growMany_settles maxDepth amount hs with ⟨trees, rest, hy⟩ | ⟨e, rest, hf⟩
    · have hy' : Yields (g.generateMany amount maxDepth) source (trees.map Tree.yield) rest :=
        yields_generateMany_iff.2 ⟨trees, hy, rfl⟩
      exact absurd (hrun.symm.trans hy') (by simp)
    · have hf' : Fails (g.generateMany amount maxDepth) source e rest :=
        fails_generateMany_iff.2 hf
      exact absurd (hrun.symm.trans hf') (by simp)
  · simp
  · simp

end Generated

/-! ## The whole run -/

namespace Arguments

/-- The source that words are generated from. -/
def source (a : Arguments) (freshSeed : UInt64) : Source :=
  .ofSeed ((a.seed.map Nat.toUInt64).getD freshSeed)

/-- The same command for one word only. -/
def alone (a : Arguments) (word : String) : Arguments :=
  { a with words := [word], showGrammar := false, amount := none }

/-- What a run writes before the words. -/
def heading (a : Arguments) (g : Grammar) : Outcome :=
  if a.showGrammar then .output (g.describe ++ "\n") else .nothing

/-- The answers to all words. -/
def answers (a : Arguments) (g : Grammar) : List Outcome :=
  (a.words.zipIdx 1).map fun (word, i) => wordOutcome g a.table word i

/-- What a run writes behind the words. -/
def generated (a : Arguments) (g : Grammar) (freshSeed : UInt64) : Option Outcome :=
  match a.amount with
  | none => some .nothing
  | some amount => generationOutcome g amount a.maxDepth (a.source freshSeed)

variable {a : Arguments} {freshSeed : UInt64} {g : Grammar} {o : Outcome}

theorem run_of_error {failures : List (Located DefinitionError)}
    (h : a.definitions.grammar = .error failures) : a.run freshSeed = some
      (.all (failures.map fun f => errorOutcome (placeName f.location) f.value.wording)) := by
  have hline : ∀ f : Located DefinitionError, Outcome.failure f.coloured =
      errorOutcome (placeName f.location) f.value.wording := fun f =>
    (failure_coloured f.location f.value).trans (by rw [toString_definitionError])
  rw [run, h]
  simp only [hline]
  rfl

theorem run_of_ok (h : a.definitions.grammar = .ok g) : a.run freshSeed =
    (a.generated g freshSeed).map fun last =>
      ((a.heading g).followedBy (.all (a.answers g))).followedBy last := by
  rw [run, h, generated]
  rcases a.amount with _ | amount
  · simp only [Option.map_some, Outcome.followedBy_nothing]
    rfl
  · dsimp only
    rw [source]
    rcases generationOutcome g amount a.maxDepth _ with _ | last <;> rfl

theorem run_alone (h : a.definitions.grammar = .ok g) (word : String) :
    (a.alone word).run freshSeed = some (wordOutcome g a.table word 1) := by
  have hg : (a.alone word).definitions.grammar = .ok g := h
  have hall : Outcome.all [wordOutcome g a.table word 1] = wordOutcome g a.table word 1 := by
    rw [Outcome.all_cons]
    exact Outcome.followedBy_nothing _
  rw [run_of_ok hg]
  simp only [generated, alone, heading, answers, Option.map_some, Outcome.followedBy_nothing,
    List.zipIdx_cons, List.zipIdx_nil, List.map_cons, List.map_nil, hall]
  exact congrArg some (Outcome.nothing_followedBy _)

theorem stdout_heading (a : Arguments) (g : Grammar) :
    (a.heading g).stdout = if a.showGrammar then g.describe ++ "\n" else "" := by
  unfold heading
  split_ifs <;> rfl

theorem stderr_heading (a : Arguments) (g : Grammar) : (a.heading g).stderr = "" := by
  unfold heading
  split_ifs <;> rfl

theorem candid_heading (a : Arguments) (g : Grammar) : (a.heading g).Candid := by
  unfold heading
  split_ifs
  · exact Outcome.candid_output _
  · exact Outcome.candid_nothing

theorem generates_of_generated (h : a.definitions.grammar = .ok g)
    (ho : a.generated g freshSeed = some o) : a.amount = none ∧ o = .nothing
      ∨ ∃ amount, a.amount = some amount
        ∧ g.Generates amount a.maxDepth (a.source freshSeed) o := by
  unfold generated at ho
  split at ho
  · rename_i hamount
    cases ho
    exact .inl ⟨hamount, rfl⟩
  · rename_i amount hamount
    exact .inr ⟨amount, hamount, (Definitions.describes_of_grammar h).1.generates ho⟩

/-- Every word has its answer, in order, and it is the answer it gets in a run of its own. -/
theorem forall₂_answers (h : a.definitions.grammar = .ok g) (freshSeed : UInt64) :
    List.Forall₂ (fun (word, i) part => g.Answers a.table word i part
        ∧ ∃ own, (a.alone word).run freshSeed = some own ∧ part.SameUpTo i 1 own)
      (a.words.zipIdx 1) (a.answers g) := by
  rw [answers, List.forall₂_map_right_iff, List.forall₂_same]
  rintro ⟨word, i⟩ hw
  have hi : 0 < i := (List.mk_mem_zipIdx_iff_le_and_getElem?_sub.1 hw).1
  exact ⟨(Definitions.describes_of_grammar h).1.answers a.table word hi, _, run_alone h word,
    wordOutcome_sameUpTo g a.table word hi Nat.one_pos⟩

theorem candid_answers (h : a.definitions.grammar = .ok g) : ∀ part ∈ a.answers g, part.Candid := by
  intro part hp
  obtain ⟨i, hi, rfl⟩ := List.mem_iff_getElem.1 hp
  exact ((forall₂_answers h 0).get (by simpa [answers] using hi) hi).1.candid

theorem candid_run (h : a.run freshSeed = some o) : o.Candid := by
  rcases hg : a.definitions.grammar with failures | g
  · rw [run_of_error hg] at h
    cases h
    refine Outcome.candid_all fun part hp => ?_
    obtain ⟨f, -, rfl⟩ := List.mem_map.1 hp
    exact candid_errorOutcome _ _
  · rw [run_of_ok hg] at h
    obtain ⟨last, hlast, rfl⟩ := Option.map_eq_some_iff.1 h
    have hlast : last.Candid := by
      rcases generates_of_generated hg hlast with ⟨-, rfl⟩ | ⟨_, -, hgenerates⟩
      · exact Outcome.candid_nothing
      · exact hgenerates.candid
    have hwords : (Outcome.all (a.answers g)).Candid := Outcome.candid_all (candid_answers hg)
    exact ((candid_heading a g).followedBy hwords).followedBy hlast

theorem not_steady_of_run (h : a.run freshSeed = none) :
    a.amount ≠ none ∧ ¬ (a.source freshSeed).Steady := by
  rcases hg : a.definitions.grammar with failures | g
  · rw [run_of_error hg] at h
    cases h
  · rw [run_of_ok hg, Option.map_eq_none_iff, generated] at h
    have hc := (Definitions.describes_of_grammar hg).1
    rcases hamount : a.amount with _ | amount <;> rw [hamount] at h
    · cases h
    · exact ⟨by simp, fun hs => hc.generationOutcome_ne_none hs h⟩

theorem run_of_seed (h : a.amount ≠ none → a.seed ≠ none) (other : UInt64) :
    a.run other = a.run freshSeed := by
  rcases hg : a.definitions.grammar with failures | g
  · rw [run_of_error hg, run_of_error hg]
  · rw [run_of_ok hg, run_of_ok hg, generated, generated]
    rcases hamount : a.amount with _ | amount
    · rfl
    · obtain ⟨seed, hseed⟩ := Option.ne_none_iff_exists'.1 (h (by simp [hamount]))
      simp only [source, hseed, Option.map_some, Option.getD_some]

/-- The whole run. Definitions that fail are all that it reports: nothing is printed, each failure
has its line, and the status is one. Otherwise every word, in order, gets the answer it gets in a
run of its own, up to its position, and behind the answers come the generated words or the one
reason why there are none. The status is one exactly if an error is written. There is no outcome
only if words are to be generated and some choice refuses more words in a row than any source puts
up with; and with a seed nothing depends on chance. -/
theorem run_outcome (a : Arguments) (freshSeed : UInt64) :
    (∀ failures, a.definitions.grammar = .error failures → ∃ o, a.run freshSeed = some o
        ∧ o.stdout = ""
        ∧ o.stderr = String.join
          (failures.map fun f => errorLine (placeName f.location) f.value.wording)
        ∧ o.status = 1)
      ∧ (∀ g, a.definitions.grammar = .ok g → ∃ parts : List Outcome,
        List.Forall₂ (fun (word, i) part => g.Answers a.table word i part
            ∧ ∃ own, (a.alone word).run freshSeed = some own ∧ part.SameUpTo i 1 own)
          (a.words.zipIdx 1) parts
          ∧ ∀ o, a.run freshSeed = some o → ∃ last,
            (a.amount = none ∧ last = ⟨"", "", false⟩
              ∨ ∃ amount, a.amount = some amount
                ∧ g.Generates amount a.maxDepth (a.source freshSeed) last)
            ∧ o.stdout = (if a.showGrammar then g.describe ++ "\n" else "")
              ++ String.join (parts.map (·.stdout)) ++ last.stdout
            ∧ o.stderr = String.join (parts.map (·.stderr)) ++ last.stderr)
      ∧ (∀ o, a.run freshSeed = some o → (o.status = 1 ↔ o.stderr ≠ "") ∧ o.status ≤ 1)
      ∧ (a.run freshSeed = none → a.amount ≠ none ∧ ¬ (a.source freshSeed).Steady)
      ∧ ((a.amount ≠ none → a.seed ≠ none) → ∀ other, a.run other = a.run freshSeed) := by
  refine ⟨fun failures h => ?_,
    fun g h => ⟨a.answers g, forall₂_answers h freshSeed, fun o ho => ?_⟩,
    fun o ho => ⟨(candid_run ho).status_iff, ?_⟩, not_steady_of_run, run_of_seed⟩
  · have hrun : a.run freshSeed = _ := run_of_error h
    obtain ⟨f, rest, rfl⟩ := List.exists_cons_of_ne_nil (Definitions.ne_nil_of_grammar h)
    refine ⟨_, hrun, Outcome.stdout_all_eq_empty fun o ho => ?_, ?_, ?_⟩
    · obtain ⟨f, -, rfl⟩ := List.mem_map.1 ho
      rfl
    · rw [Outcome.stderr_all, List.map_map]
      rfl
    · refine (candid_run hrun).status_iff.2 ?_
      simp [Outcome.all_cons, Outcome.followedBy, errorOutcome, errorLine,
        String.append_eq_empty_iff]
  · rw [run_of_ok h] at ho
    obtain ⟨last, hlast, rfl⟩ := Option.map_eq_some_iff.1 ho
    refine ⟨last, generates_of_generated h hlast, ?_, ?_⟩
    · rw [Outcome.followedBy, Outcome.followedBy, Outcome.stdout_all, stdout_heading]
    · rw [Outcome.followedBy, Outcome.followedBy, Outcome.stderr_all, stderr_heading,
        String.empty_append]
  · unfold Outcome.status
    split_ifs <;> decide

-- the empty word is rejected, and the word that cannot be asked about does not stop the others
example : (run ⟨⟨['a'], ['S'], some 'S', ["S=SS|a"]⟩, ["aa", "b", ""], false, false, none, none, 8⟩
    0).map (fun o => (o.stdout, o.status)) = some ("aa: accepted\n: rejected\n", 1) := by
  decide +kernel

end Arguments

end Chomsky
