import Chomsky.Event
import Chomsky.Proofs.Reachable
import Mathlib.Data.List.DropRight

/-!
# Histories

A run of edits tells refused edits from accepted ones. A refused edit leaves the grammar as it was
and reports nothing, so a run without its refused edits leads to the same grammar and gets the same
answers (`run_accepted`). What the accepted edits since the last clearing describe is kept up edit
by edit (`Describes.commit`) and is all that a grammar knows (`Describes.eq_ofHistory`), and an
accepted edit can be read off the message it leaves (`ofMessage?_message`). So the messages of a run
are enough to build its grammar again (`run_history`).
-/

namespace Chomsky

/-! ## What an edit asks for -/

namespace Edit

def terminal? : Edit → Option Char
  | addTerminal c => some c
  | _ => none

def nonterminal? : Edit → Option Char
  | addNonterminal c => some c
  | _ => none

def start? : Edit → Option Char
  | setStart c => some c
  | _ => none

def rightHandSide? (c : Char) : Edit → Option String
  | addProduction lhs rhs => if lhs = c then some rhs else none
  | _ => none

variable {e : Edit} {c : Char} {rhs : String}

theorem terminal?_eq_some_iff : e.terminal? = some c ↔ e = .addTerminal c := by
  cases e <;> simp [terminal?]

theorem nonterminal?_eq_some_iff : e.nonterminal? = some c ↔ e = .addNonterminal c := by
  cases e <;> simp [nonterminal?]

theorem start?_eq_some_iff : e.start? = some c ↔ e = .setStart c := by
  cases e <;> simp [start?]

theorem rightHandSide?_eq_some_iff : e.rightHandSide? c = some rhs ↔ e = .addProduction c rhs := by
  cases e <;> simp [rightHandSide?]

end Edit

/-- The alternative with this text, whatever is declared. -/
def Alternative.ofText? (rhs : String) : Option Alternative :=
  match rhs.toList with
  | [t] => some (.letter t)
  | [b, c] => some (.pair b c)
  | _ => none

/-- The edit that asks for a change. -/
def Change.edit : Change → Edit
  | .terminalAdded c => .addTerminal c
  | .nonterminalAdded c => .addNonterminal c
  | .startSet c => .setStart c
  | .productionAdded lhs a => .addProduction lhs a.text
  | .cleared => .clear

/-- The alternative that a change adds to those of `c`. -/
def Change.alternative? (c : Char) : Change → Option Alternative
  | .productionAdded lhs a => if lhs = c then some a else none
  | _ => none

theorem Change.rightHandSide?_edit (change : Change) (c : Char) :
    change.edit.rightHandSide? c = (change.alternative? c).map Alternative.text := by
  cases change with
  | productionAdded lhs a =>
    simp only [edit, Edit.rightHandSide?, alternative?]
    split_ifs <;> rfl
  | _ => rfl

theorem Change.alternative?_eq_some_iff {c : Char} {a : Alternative} {change : Change} :
    change.alternative? c = some a ↔ change = .productionAdded c a := by
  cases change with
  | productionAdded lhs b =>
    simp only [alternative?, productionAdded.injEq]
    split_ifs with h <;> simp [h]
  | _ => simp [alternative?]

theorem filterMap_concat {α β : Type} (f : α → Option β) (l : List α) (x : α) :
    (l ++ [x]).filterMap f = l.filterMap f ++ (f x).toList := by
  rw [List.filterMap_append]
  cases h : f x <;> simp [h]

/-- The edits behind the last one that clears the grammar. -/
def sinceClear (edits : List Edit) : List Edit := edits.rtakeWhile (· ≠ .clear)

namespace Grammar

/-- The edits of a run that are accepted. -/
def accepted (g : Grammar) (edits : List Edit) : List Edit :=
  ((edits.zip (g.run edits).2).filter fun p => p.2.isOk).map Prod.fst

/-- The grammar that a history describes: the letters in the order they were added, the start symbol
that was set last, and for each nonterminal its right-hand sides in the order they were added. -/
def ofHistory (history : List Edit) : Grammar where
  terminals := history.filterMap Edit.terminal?
  groups := (history.filterMap Edit.nonterminal?).map fun c =>
    ⟨c, (history.filterMap (Edit.rightHandSide? c)).filterMap Alternative.ofText?⟩
  start := (history.filterMap Edit.start?).getLast?

/-- Whether every view of a grammar is what a history says. -/
structure Describes (g : Grammar) (history : List Edit) : Prop where
  terminals : g.terminals = history.filterMap Edit.terminal?
  nonterminals : g.nonterminals = history.filterMap Edit.nonterminal?
  start : g.start = (history.filterMap Edit.start?).getLast?
  alternatives : ∀ c, (g.alternatives c).map Alternative.text =
    history.filterMap (Edit.rightHandSide? c)

variable {g : Grammar} {history : List Edit} {e : Edit} {change : Change} {reason : GrammarError}

/-! ## Edit by edit -/

theorem apply_of_ok (h : g.check e = .ok change) : g.apply e = (g.commit change, .ok change) := by
  rw [apply, h]

theorem apply_of_error (h : g.check e = .error reason) : g.apply e = (g, .error reason) := by
  rw [apply, h]

theorem run_cons_of_ok (h : g.check e = .ok change) (rest : List Edit) : g.run (e :: rest) =
    (((g.commit change).run rest).1, .ok change :: ((g.commit change).run rest).2) := by
  rw [run, apply_of_ok h]

theorem run_cons_of_error (h : g.check e = .error reason) (rest : List Edit) :
    g.run (e :: rest) = ((g.run rest).1, .error reason :: (g.run rest).2) := by
  rw [run, apply_of_error h]

theorem accepted_cons_of_ok (h : g.check e = .ok change) (rest : List Edit) :
    g.accepted (e :: rest) = e :: (g.commit change).accepted rest := by
  simp only [accepted, run_cons_of_ok h, List.zip_cons_cons]
  rfl

theorem accepted_cons_of_error (h : g.check e = .error reason) (rest : List Edit) :
    g.accepted (e :: rest) = g.accepted rest := by
  simp only [accepted, run_cons_of_error h, List.zip_cons_cons]
  rfl

/-- What holds of a run without edits, and before an edit if it holds of what the edit leads to,
holds of every run. -/
@[elab_as_elim]
theorem run_induction {motive : Grammar → List Edit → Prop} (nil : ∀ g, motive g [])
    (refused : ∀ {g e reason rest}, g.check e = .error reason → motive g rest →
      motive g (e :: rest))
    (accepted : ∀ {g e change rest}, g.check e = .ok change → motive (g.commit change) rest →
      motive g (e :: rest)) (g : Grammar) (edits : List Edit) : motive g edits := by
  induction edits generalizing g with
  | nil => exact nil g
  | cons e rest ih =>
    rcases hc : g.check e with reason | change
    · exact refused hc (ih g)
    · exact accepted hc (ih _)

/-! ## Refused edits -/

theorem apply_refused (h : (g.apply e).2 = .error reason) :
    (g.apply e).1 = g ∧ Event.ofAnswer (g.apply e).2 = [] := by
  rcases hc : g.check e with reason' | change
  · rw [apply_of_error hc]
    exact ⟨rfl, rfl⟩
  · rw [apply_of_ok hc] at h
    cases h

theorem run_accepted (g : Grammar) (edits : List Edit) :
    g.run (g.accepted edits) = ((g.run edits).1, (g.run edits).2.filter (·.isOk)) := by
  induction g, edits using run_induction with
  | nil => rfl
  | refused hc ih =>
    rw [accepted_cons_of_error hc, run_cons_of_error hc, ih]
    rfl
  | accepted hc ih =>
    rw [accepted_cons_of_ok hc, run_cons_of_ok hc, run_cons_of_ok hc, ih]
    rfl

-- the first production comes before its left-hand side is declared
example : empty.accepted [.addTerminal 'a', .addProduction 'S' "a", .addNonterminal 'S',
    .addProduction 'S' "a"] = [.addTerminal 'a', .addNonterminal 'S', .addProduction 'S' "a"] := by
  decide +kernel

/-! ## Accepted edits -/

theorem text_of_readAlternative? {rhs : String} {a : Alternative}
    (h : g.readAlternative? rhs = some a) : a.text = rhs := by
  unfold readAlternative? at h
  split at h <;> rename_i hr
  · split_ifs at h
    cases h
    rw [Alternative.text, ← hr, String.ofList_toList]
  · split_ifs at h
    cases h
    rw [Alternative.text, ← hr, String.ofList_toList]
  · cases h

theorem ofText?_text (a : Alternative) : Alternative.ofText? a.text = some a := by
  cases a <;> simp [Alternative.ofText?, Alternative.text]

theorem text_injective : Function.Injective Alternative.text := by
  intro a b h
  have hread := congrArg Alternative.ofText? h
  simpa only [ofText?_text, Option.some.injEq] using hread

theorem edit_of_check (h : g.check e = .ok change) : change.edit = e := by
  cases e with
  | addProduction lhs rhs =>
    simp only [check] at h
    split_ifs at h
    split at h
    · cases h
    · rename_i a ha
      split_ifs at h
      cases h
      rw [Change.edit, text_of_readAlternative? ha]
  | clear =>
    cases h
    rfl
  | _ =>
    simp only [check] at h
    split_ifs at h
    cases h
    rfl

theorem ne_cleared_of_check (hc : g.check e = .ok change) (he : e ≠ .clear) :
    change ≠ .cleared := by
  rintro rfl
  exact he (edit_of_check hc).symm

/-! ## What a change adds to the views -/

theorem terminals_commit (g : Grammar) (hc : change ≠ .cleared) :
    (g.commit change).terminals = g.terminals ++ change.edit.terminal?.toList := by
  cases change with
  | terminalAdded c => rfl
  | cleared => exact absurd rfl hc
  | _ => exact (List.append_nil _).symm

theorem nonterminals_commit (g : Grammar) (hc : change ≠ .cleared) :
    (g.commit change).nonterminals = g.nonterminals ++ change.edit.nonterminal?.toList := by
  cases change with
  | nonterminalAdded c => exact nonterminals_commit_nonterminalAdded g c
  | productionAdded lhs a =>
    rw [nonterminals_commit_productionAdded]
    exact (List.append_nil _).symm
  | cleared => exact absurd rfl hc
  | _ => exact (List.append_nil _).symm

theorem start_commit (g : Grammar) (hc : change ≠ .cleared) :
    (g.commit change).start = change.edit.start?.or g.start := by
  cases change with
  | cleared => exact absurd rfl hc
  | _ => rfl

theorem alternatives_commit (ha : g.Admits change) (hc : change ≠ .cleared) (c : Char) :
    (g.commit change).alternatives c = g.alternatives c ++ (change.alternative? c).toList := by
  cases ha with
  | nonterminal =>
    rw [alternatives_commit_nonterminalAdded]
    exact (List.append_nil _).symm
  | @production lhs a hl =>
    rw [alternatives_commit_productionAdded g a hl]
    rcases eq_or_ne c lhs with rfl | hcl
    · simp [Change.alternative?]
    · simp [Change.alternative?, hcl, hcl.symm]
  | clear => exact absurd rfl hc
  | _ => exact (List.append_nil _).symm

/-- Without clearing, a run only adds alternatives, and puts them after those that were there. -/
theorem alternatives_run (c : Char) {edits : List Edit} (h : .clear ∉ edits) :
    (g.run edits).1.alternatives c = g.alternatives c
      ++ (g.run edits).2.filterMap fun answer => answer.toOption.bind (Change.alternative? c) := by
  induction g, edits using run_induction with
  | nil g => exact (List.append_nil _).symm
  | refused hc ih =>
    rw [run_cons_of_error hc, ih (List.not_mem_of_not_mem_cons h)]
    rfl
  | @accepted g e change rest hc ih =>
    have hclear := ne_cleared_of_check hc (List.ne_of_not_mem_cons h).symm
    rw [run_cons_of_ok hc, ih (List.not_mem_of_not_mem_cons h),
      alternatives_commit (admits_of_check hc) hclear, List.append_assoc]
    congr 1
    cases ha : change.alternative? c <;> simp [ha, Except.toOption]

theorem texts_commit (ha : g.Admits change) (hc : change ≠ .cleared) (c : Char) :
    ((g.commit change).alternatives c).map Alternative.text =
      (g.alternatives c).map Alternative.text ++ (change.edit.rightHandSide? c).toList := by
  rw [alternatives_commit ha hc, List.map_append, ← Option.toList_map, change.rightHandSide?_edit]

/-! ## Histories of runs -/

theorem describes_empty : empty.Describes [] :=
  ⟨rfl, rfl, rfl, fun _ => rfl⟩

theorem Describes.commit (h : g.Describes history) (ha : g.Admits change) (hc : change ≠ .cleared) :
    (g.commit change).Describes (history ++ [change.edit]) := by
  refine ⟨?_, ?_, ?_, fun c => ?_⟩
  · rw [terminals_commit g hc, h.terminals, filterMap_concat]
  · rw [nonterminals_commit g hc, h.nonterminals, filterMap_concat]
  · rw [start_commit g hc, h.start, filterMap_concat, List.getLast?_append]
    cases change.edit.start? <;> rfl
  · rw [texts_commit ha hc, h.alternatives, filterMap_concat]

theorem sinceClear_concat (h : e ≠ .clear) :
    sinceClear (history ++ [e]) = sinceClear history ++ [e] :=
  List.rtakeWhile_concat_pos _ _ _ (by simpa using h)

theorem sinceClear_concat_clear : sinceClear (history ++ [.clear]) = [] :=
  List.rtakeWhile_concat_neg _ _ _ (by simp)

theorem Describes.run (h : g.Describes (sinceClear history)) (edits : List Edit) :
    (g.run edits).1.Describes (sinceClear (history ++ g.accepted edits)) := by
  induction g, edits using run_induction generalizing history with
  | nil g => rwa [show g.accepted [] = [] from rfl, List.append_nil]
  | refused hc ih =>
    rw [accepted_cons_of_error hc, run_cons_of_error hc]
    exact ih h
  | @accepted _ _ change _ hc ih =>
    rw [accepted_cons_of_ok hc, run_cons_of_ok hc, List.append_cons]
    refine ih ?_
    have he := edit_of_check hc
    by_cases hclear : change = .cleared
    · subst hclear he
      rw [Change.edit, sinceClear_concat_clear]
      exact describes_empty
    · rw [sinceClear_concat ?_, ← he]
      · exact h.commit (admits_of_check hc) hclear
      · rintro rfl
        cases hc
        exact hclear rfl

theorem describes_run (edits : List Edit) :
    (empty.run edits).1.Describes (sinceClear (empty.accepted edits)) :=
  (show empty.Describes (sinceClear []) from describes_empty).run edits

theorem Consistent.groups_eq (hg : g.Consistent) :
    g.groups = g.nonterminals.map fun c => ⟨c, g.alternatives c⟩ := by
  rw [nonterminals, List.map_map]
  refine (List.map_id g.groups).symm.trans (List.map_congr_left fun group hm => ?_)
  simp only [id, Function.comp_apply, alternatives_symbol hg.nonterminals_nodup hm]

/-- Consistent grammars that agree in every view are equal. -/
theorem Consistent.eq_of_views {g' : Grammar} (hg : g.Consistent) (hg' : g'.Consistent)
    (ht : g.terminals = g'.terminals) (hn : g.nonterminals = g'.nonterminals)
    (hs : g.start = g'.start) (ha : ∀ c, g.alternatives c = g'.alternatives c) : g = g' :=
  calc g = ⟨g.terminals, g.groups, g.start⟩ := rfl
    _ = ⟨g'.terminals, g'.groups, g'.start⟩ := by
      simp only [hg.groups_eq, hg'.groups_eq, ht, hn, hs, ha]

theorem Describes.eq_ofHistory (h : g.Describes history) (hg : g.Consistent) :
    g = ofHistory history := by
  have htext : ∀ alternatives : List Alternative,
      (alternatives.map Alternative.text).filterMap Alternative.ofText? = alternatives := by
    intro alternatives
    rw [List.filterMap_map]
    exact (List.filterMap_congr fun a _ => ofText?_text a).trans List.filterMap_some
  have hgroups : g.groups = (ofHistory history).groups := by
    simp only [ofHistory, ← h.nonterminals, ← h.alternatives, htext]
    exact hg.groups_eq
  calc g = ⟨g.terminals, g.groups, g.start⟩ := rfl
    _ = ofHistory history := by
      rw [hgroups, h.terminals, h.start]
      rfl

end Grammar

/-! ## Messages -/

/-- What follows a phrase at the beginning of a text. -/
def after? (phrase : String) (text : List Char) : Option (List Char) :=
  phrase.toList.isPrefixOf? text

/-- The letter of a text that is one letter long. -/
def letter? : List Char → Option Char
  | [c] => some c
  | _ => none

namespace Edit

/-- Reads the line of a single production. -/
def production? : List Char → Option Edit
  | lhs :: ':' :: ':' :: '=' :: rhs => some (addProduction lhs (String.ofList rhs))
  | _ => none

/-- The edit whose acceptance a message reports. -/
def ofMessage? (message : String) : Option Edit :=
  let text := message.toList
  ((after? "Added terminal " text).bind letter?).map addTerminal
    <|> ((after? "Added nonterminal " text).bind letter?).map addNonterminal
    <|> ((after? "Start symbol is now " text).bind letter?).map setStart
    <|> (after? "Added production " text).bind production?
    <|> if message = "Removed grammar" then some clear else none

end Edit

theorem after?_append (phrase : String) (rest : List Char) :
    after? phrase (phrase.toList ++ rest) = some rest :=
  List.isPrefixOf?_eq_some_iff_append_eq.2 rfl

theorem toList_append_letter (phrase : String) (c : Char) :
    (toString phrase ++ toString c).toList = phrase.toList ++ [c] := by
  simp only [toString, String.toList_append, Char.toString, String.toList_singleton]

theorem toList_append_production (phrase rhs : String) (lhs : Char) :
    (toString phrase ++ toString lhs ++ toString "::=" ++ toString rhs).toList =
      phrase.toList ++ lhs :: ':' :: ':' :: '=' :: rhs.toList := by
  simp [toString]

/-- An accepted edit can be read off its message. -/
theorem Change.ofMessage?_message (change : Change) :
    Edit.ofMessage? change.message = some change.edit := by
  unfold Edit.ofMessage?
  cases change with
  | terminalAdded c =>
    have h : (terminalAdded c).message.toList = "Added terminal ".toList ++ [c] :=
      toList_append_letter _ c
    simp only [h, after?_append]
    rfl
  | nonterminalAdded c =>
    have h : (nonterminalAdded c).message.toList = "Added nonterminal ".toList ++ [c] :=
      toList_append_letter _ c
    simp only [h, after?_append]
    rfl
  | startSet c =>
    have h : (startSet c).message.toList = "Start symbol is now ".toList ++ [c] :=
      toList_append_letter _ c
    simp only [h, after?_append]
    rfl
  | productionAdded lhs a =>
    have h : (productionAdded lhs a).message.toList =
        "Added production ".toList ++ lhs :: ':' :: ':' :: '=' :: a.text.toList :=
      toList_append_production _ a.text lhs
    have hread : Edit.production? (lhs :: ':' :: ':' :: '=' :: a.text.toList) =
        some (.addProduction lhs a.text) := by
      rw [Edit.production?, String.ofList_toList]
    simp only [h, after?_append, Option.bind_some, hread]
    rfl
  | cleared => rfl

namespace Grammar

theorem ofMessage?_run (g : Grammar) (edits : List Edit) :
    ((g.run edits).2.flatMap Event.ofAnswer).map (fun r => Edit.ofMessage? r.message) =
      (g.accepted edits).map some := by
  induction g, edits using run_induction with
  | nil => rfl
  | refused hc ih =>
    rw [accepted_cons_of_error hc, run_cons_of_error hc]
    exact ih
  | @accepted _ _ change _ hc ih =>
    rw [accepted_cons_of_ok hc, run_cons_of_ok hc, List.flatMap_cons, List.map_append, ih]
    show [Edit.ofMessage? change.message] ++ _ = _
    rw [change.ofMessage?_message, edit_of_check hc]
    rfl

theorem level_of_mem_ofAnswer {answer : Except GrammarError Change} {r : Event}
    (h : r ∈ Event.ofAnswer answer) : r.level = .debug := by
  cases answer with
  | error reason => cases h
  | ok change =>
    rw [List.mem_singleton.1 h]
    rfl

/-- What a run of edits leaves behind. A refused edit changes and reports nothing, so without the
refused edits the run leads to the same grammar and the others get the same answers. The grammar is
the one that the accepted edits since the last clearing describe. There is one message for each
accepted edit, in their order, and the edits read off the messages lead to the grammar again. -/
theorem run_history (edits : List Edit) :
    let g := (empty.run edits).1
    let answers := (empty.run edits).2
    let kept := empty.accepted edits
    let log := answers.flatMap Event.ofAnswer
    (∀ (now : Grammar) (e : Edit) (reason : GrammarError), (now.apply e).2 = .error reason →
        (now.apply e).1 = now ∧ Event.ofAnswer (now.apply e).2 = [])
      ∧ empty.run kept = (g, answers.filter (·.isOk))
      ∧ g = ofHistory (sinceClear kept)
      ∧ (∀ c, (g.alternatives c).map Alternative.text =
          (sinceClear kept).filterMap (Edit.rightHandSide? c))
      ∧ (∀ r ∈ log, r.level = .debug)
      ∧ log.map (fun r => Edit.ofMessage? r.message) = kept.map some
      ∧ (empty.run (log.filterMap fun r => Edit.ofMessage? r.message)).1 = g := by
  intro g answers kept log
  have hrun : empty.run kept = (g, answers.filter (·.isOk)) := run_accepted empty edits
  have hdescribes : g.Describes (sinceClear kept) := by
    have hempty : empty.Describes (sinceClear []) := describes_empty
    exact hempty.run edits
  have hlog : log.map (fun r => Edit.ofMessage? r.message) = kept.map some :=
    ofMessage?_run empty edits
  refine ⟨fun now e reason h => apply_refused h, hrun, ?_, hdescribes.alternatives, ?_, hlog, ?_⟩
  · exact hdescribes.eq_ofHistory (consistent_empty.run edits)
  · intro r hr
    obtain ⟨answer, -, hm⟩ := List.mem_flatMap.1 hr
    exact level_of_mem_ofAnswer hm
  · have hread : log.filterMap (fun r => Edit.ofMessage? r.message) = kept :=
      calc log.filterMap (fun r => Edit.ofMessage? r.message)
          = (log.map fun r => Edit.ofMessage? r.message).filterMap id := by
            rw [List.filterMap_map, Function.id_comp]
        _ = kept := by rw [hlog, List.filterMap_map, Function.id_comp, List.filterMap_some]
    rw [hread, hrun]

end Grammar

end Chomsky
