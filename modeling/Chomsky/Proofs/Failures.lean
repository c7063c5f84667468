import Chomsky.Proofs.History
import Chomsky.Proofs.ProductionText

/-!
# What is wrong with definitions

Definitions are tried one after the other on a grammar that grows, but what fails can be told from
the definitions alone (`Definitions.failures`): a letter by its class and the letters before it, the
start symbol by the nonterminals, and a production by the letters and the productions before it. A
failure therefore neither causes nor hides another one. The grammar on the way holds exactly the
letters of the right class (`Kept`) and the productions over them that came before (`Grown`), so
each request is answered as its definition is judged, and the failures collected are those
(`failures_grammar`).
-/

namespace Chomsky

/-! ## Judging definitions -/

/-- What is wrong with the elements of a list, each judged by those before it. -/
def judge {α : Type} (place : α → Nat → Location)
    (verdict : List α → α → Option DefinitionError) (all : List α) :
    List (Located DefinitionError) :=
  (all.zipIdx 1).filterMap fun (x, k) => (verdict (all.take (k - 1)) x).map (⟨place x k, ·⟩)

theorem map_zipIdx_fst {α β : Type} (f : α → β) (l : List α) :
    (l.zipIdx 1).map (fun p => f p.1) = l.map f := by
  conv_rhs => rw [← List.zipIdx_map_fst 1 l, List.map_map]
  rfl

/-- A letter needs the class of the letters it is among, and must not be among those before it. -/
def letterVerdict (part : Char → Symbol) (before : List Char) (c : Char) : Option DefinitionError :=
  if Symbol.ofChar? c = some (part c) ∧ c ∉ before then none
  else some (.rejected (.invalidSymbol c))

/-- What the text of a production asks for: a left-hand side and a right-hand side for each piece.
-/
def productionPairs (text : String) : List (Except DefinitionError (Char × String)) :=
  match readProduction? text with
  | some (lhs, pieces) => pieces.map fun rhs => .ok (lhs, rhs)
  | none => [.error (.malformed text)]

namespace Definitions

def IsTerminal (d : Definitions) (c : Char) : Prop :=
  c ∈ d.terminals ∧ Symbol.ofChar? c = some (.terminal c)

def IsNonterminal (d : Definitions) (c : Char) : Prop :=
  c ∈ d.nonterminals ∧ Symbol.ofChar? c = some (.nonterminal c)

instance (d : Definitions) (c : Char) : Decidable (d.IsTerminal c) :=
  inferInstanceAs (Decidable (_ ∧ _))

instance (d : Definitions) (c : Char) : Decidable (d.IsNonterminal c) :=
  inferInstanceAs (Decidable (_ ∧ _))

/-- Whether a right-hand side is one terminal or two nonterminals. -/
def Normal (d : Definitions) : List Char → Prop
  | [t] => d.IsTerminal t
  | [b, c] => d.IsNonterminal b ∧ d.IsNonterminal c
  | _ => False

instance (d : Definitions) : (rhs : List Char) → Decidable (d.Normal rhs)
  | [] => isFalse id
  | [t] => inferInstanceAs (Decidable (d.IsTerminal t))
  | [b, c] => inferInstanceAs (Decidable (d.IsNonterminal b ∧ d.IsNonterminal c))
  | _ :: _ :: _ :: _ => isFalse id

def startFailures (d : Definitions) : List (Located DefinitionError) :=
  match d.start with
  | none => []
  | some c =>
    if d.IsNonterminal c then [] else [⟨⟨"--start", 0⟩, .rejected (.unknownSymbol c)⟩]

/-- All that the texts of the productions ask for, with their places. -/
def pairs (d : Definitions) : List (Located (Except DefinitionError (Char × String))) :=
  (d.productions.zipIdx 1).flatMap fun (text, i) =>
    (productionPairs text).map fun pair => ⟨⟨"--production", i⟩, pair⟩

/-- A production needs a nonterminal on the left and a normal right-hand side, and must not have
occurred before. -/
def pairVerdict (d : Definitions)
    (before : List (Located (Except DefinitionError (Char × String)))) :
    Located (Except DefinitionError (Char × String)) → Option DefinitionError
  | ⟨_, .error reason⟩ => some reason
  | ⟨_, .ok (lhs, rhs)⟩ =>
    if ¬ d.IsNonterminal lhs then some (.rejected (.unknownSymbol lhs))
    else if ¬ d.Normal rhs.toList then some (.rejected (.invalidProduction lhs rhs))
    else if .ok (lhs, rhs) ∈ before.map (·.value) then
      some (.rejected (.duplicateProduction lhs rhs))
    else none

/-- All that is wrong with definitions, each judged on its own. -/
def failures (d : Definitions) : List (Located DefinitionError) :=
  judge (fun _ k => ⟨"--terminals", k⟩) (letterVerdict .terminal) d.terminals ++
  judge (fun _ k => ⟨"--nonterminals", k⟩) (letterVerdict .nonterminal) d.nonterminals ++
  d.startFailures ++
  judge (fun pair _ => pair.location) d.pairVerdict d.pairs

end Definitions

/-! ## Request by request -/

namespace Grammar

/-- Carries out one request: the grammar after it, and what is wrong with the request. -/
def serve (g : Grammar) : Except DefinitionError Edit → Grammar × Option DefinitionError
  | .error reason => (g, some reason)
  | .ok edit =>
    match g.check edit with
    | .ok change => (g.commit change, none)
    | .error reason => (g, some (.rejected reason))

variable {g : Grammar}

theorem serve_of_ok {e : Edit} {change : Change} (h : g.check e = .ok change) :
    g.serve (.ok e) = (g.commit change, none) := by
  simp only [serve, h]

theorem serve_of_error {e : Edit} {reason : GrammarError} (h : g.check e = .error reason) :
    g.serve (.ok e) = (g, some (.rejected reason)) := by
  simp only [serve, h]

theorem feed_cons (g : Grammar) (request : Located (Except DefinitionError Edit))
    (rest : List (Located (Except DefinitionError Edit))) : g.feed (request :: rest) =
      (((g.serve request.value).1.feed rest).1,
        ((g.serve request.value).2.map (⟨request.location, ·⟩)).toList
          ++ ((g.serve request.value).1.feed rest).2) := by
  obtain ⟨location, reason | e⟩ := request
  · rfl
  · rcases h : g.check e with reason | change
    · simp only [feed, apply_of_error h, serve_of_error h]
      rfl
    · simp only [feed, apply_of_ok h, serve_of_ok h]
      rfl

theorem feed_append (rs rs' : List (Located (Except DefinitionError Edit))) : g.feed (rs ++ rs') =
    (((g.feed rs).1.feed rs').1, (g.feed rs).2 ++ ((g.feed rs).1.feed rs').2) := by
  induction rs generalizing g with
  | nil => rfl
  | cons r rs ih => simp only [List.cons_append, feed_cons, ih, List.append_assoc]

section Judge

variable {α : Type} (place : α → Nat → Location) (verdict : List α → α → Option DefinitionError)
  (request : α → Except DefinitionError Edit) (Inv : List α → Grammar → Prop)

theorem feed_eq_judge_from
    (step : ∀ {before g} (x), Inv before g →
      (g.serve (request x)).2 = verdict before x ∧ Inv (before ++ [x]) (g.serve (request x)).1) :
    ∀ (rest before : List α) {g : Grammar}, Inv before g →
      let fed := g.feed ((rest.zipIdx (before.length + 1)).map fun (x, k) => ⟨place x k, request x⟩)
      fed.2 = (rest.zipIdx (before.length + 1)).filterMap (fun (x, k) =>
          (verdict ((before ++ rest).take (k - 1)) x).map (⟨place x k, ·⟩))
        ∧ Inv (before ++ rest) fed.1
  | [], before, g, h => ⟨rfl, (List.append_nil before).symm ▸ h⟩
  | x :: rest, before, g, h => by
    obtain ⟨hv, hinv⟩ := step x h
    have hrest := feed_eq_judge_from step rest (before ++ [x]) hinv
    simp only [List.length_append, List.length_singleton, List.append_assoc,
      List.singleton_append] at hrest
    simp only [List.zipIdx_cons, List.map_cons, feed_cons, hrest.1, hv]
    refine ⟨?_, hrest.2⟩
    have htake : (before ++ x :: rest).take (before.length + 1 - 1) = before := by simp
    rw [List.filterMap_cons, htake]
    rcases verdict before x with _ | reason <;> rfl

/-- If each request is answered as it is judged, so are all of them. -/
theorem feed_eq_judge
    (step : ∀ {before g} (x), Inv before g →
      (g.serve (request x)).2 = verdict before x ∧ Inv (before ++ [x]) (g.serve (request x)).1)
    (all : List α) (h : Inv [] g) :
    let fed := g.feed ((all.zipIdx 1).map fun (x, k) => ⟨place x k, request x⟩)
    fed.2 = judge place verdict all ∧ Inv all fed.1 :=
  feed_eq_judge_from place verdict request Inv step all [] h

end Judge

/-! ## Letters -/

/-- Whether these are the letters of a list that have the class of their alphabet. -/
def Kept (part : Char → Symbol) (before kept : List Char) : Prop :=
  ∀ c, c ∈ kept ↔ c ∈ before ∧ Symbol.ofChar? c = some (part c)

section Letters

variable {part : Char → Symbol} {before kept : List Char} {c : Char}

theorem Kept.accept (h : Kept part before kept) (hc : Symbol.ofChar? c = some (part c)) :
    Kept part (before ++ [c]) (kept ++ [c]) := by
  intro x
  rcases eq_or_ne x c with rfl | hx
  · simp [hc]
  · simp [h x, hx]

theorem Kept.refuse (h : Kept part before kept)
    (hc : ¬ (Symbol.ofChar? c = some (part c) ∧ c ∉ before)) : Kept part (before ++ [c]) kept := by
  intro x
  rcases eq_or_ne x c with rfl | hx
  · rw [h x]
    have : Symbol.ofChar? x = some (part x) → x ∈ before := by simpa using hc
    simp only [List.mem_append, List.mem_singleton, or_true, true_and]
    exact ⟨And.right, fun hx => ⟨this hx, hx⟩⟩
  · simp [h x, hx]

/-- Letters requested of a grammar that is built from those kept so far. -/
theorem feed_letters {edit : Char → Edit} {build : List Char → Grammar}
    (hserve : ∀ kept c, (build kept).serve (.ok (edit c)) =
      if Symbol.ofChar? c = some (part c) ∧ c ∉ kept then (build (kept ++ [c]), none)
      else (build kept, some (.rejected (.invalidSymbol c))))
    (argument : String) (letters : List Char) :
    ∃ kept, Kept part letters kept ∧
      (build []).feed ((letters.zipIdx 1).map fun (c, i) => ⟨⟨argument, i⟩, .ok (edit c)⟩) =
        (build kept, judge (fun _ k => ⟨argument, k⟩) (letterVerdict part) letters) := by
  have hfed := feed_eq_judge (fun _ k => ⟨argument, k⟩) (letterVerdict part)
    (fun c => .ok (edit c)) (fun before g => ∃ kept, Kept part before kept ∧ g = build kept)
    ?_ letters ⟨[], by simp [Kept], rfl⟩
  · obtain ⟨hf, kept, hk, hg⟩ := hfed
    exact ⟨kept, hk, Prod.ext hg hf⟩
  · rintro before _ c ⟨kept, hk, rfl⟩
    have hnew : Symbol.ofChar? c = some (part c) ∧ c ∉ kept ↔
        Symbol.ofChar? c = some (part c) ∧ c ∉ before := by
      rw [hk c]
      tauto
    simp only [hserve, hnew, letterVerdict]
    split_ifs with hc
    · exact ⟨rfl, kept ++ [c], hk.accept hc.1, rfl⟩
    · exact ⟨rfl, kept, hk.refuse hc, rfl⟩

end Letters

/-- A grammar with nothing to rewrite. -/
def ofLetters (terminals nonterminals : List Char) (start : Option Char) : Grammar :=
  ⟨terminals, nonterminals.map (⟨·, []⟩), start⟩

section OfLetters

variable (terminals nonterminals : List Char) (start : Option Char) (c : Char)

@[simp] theorem nonterminals_ofLetters :
    (ofLetters terminals nonterminals start).nonterminals = nonterminals := by
  simp [ofLetters, Grammar.nonterminals, Function.comp_def]

@[simp] theorem alternatives_ofLetters :
    (ofLetters terminals nonterminals start).alternatives c = [] := by
  unfold alternatives ofLetters
  split
  · rename_i group hg
    obtain ⟨d, -, rfl⟩ := List.mem_map.1 (List.mem_of_find?_eq_some hg)
    rfl
  · rfl

theorem serve_addTerminal_ofLetters :
    (ofLetters terminals nonterminals start).serve (.ok (.addTerminal c)) =
      if Symbol.ofChar? c = some (.terminal c) ∧ c ∉ terminals then
        (ofLetters (terminals ++ [c]) nonterminals start, none)
      else (ofLetters terminals nonterminals start, some (.rejected (.invalidSymbol c))) := by
  have hcommit : ofLetters (terminals ++ [c]) nonterminals start =
      (ofLetters terminals nonterminals start).commit (.terminalAdded c) := rfl
  split_ifs with h
  · rw [hcommit]
    exact serve_of_ok (if_pos h)
  · exact serve_of_error (if_neg h)

theorem serve_addNonterminal_ofLetters :
    (ofLetters terminals nonterminals start).serve (.ok (.addNonterminal c)) =
      if Symbol.ofChar? c = some (.nonterminal c) ∧ c ∉ nonterminals then
        (ofLetters terminals (nonterminals ++ [c]) start, none)
      else (ofLetters terminals nonterminals start, some (.rejected (.invalidSymbol c))) := by
  have hcommit : ofLetters terminals (nonterminals ++ [c]) start =
      (ofLetters terminals nonterminals start).commit (.nonterminalAdded c) := by
    simp [commit, ofLetters]
  split_ifs with h <;> rw [← nonterminals_ofLetters terminals nonterminals start] at h
  · rw [hcommit]
    exact serve_of_ok (if_pos h)
  · exact serve_of_error (if_neg h)

end OfLetters

/-! ## The start symbol -/

theorem feed_start (d : Definitions) (terminals : List Char) {nonterminals : List Char}
    (hn : Kept .nonterminal d.nonterminals nonterminals) :
    ∃ start, (ofLetters terminals nonterminals none).feed
        (d.start.toList.map fun c => ⟨⟨"--start", 0⟩, .ok (.setStart c)⟩) =
      (ofLetters terminals nonterminals start, d.startFailures) := by
  unfold Definitions.startFailures
  rcases d.start with _ | c
  · exact ⟨none, rfl⟩
  · simp only [Option.toList_some, List.map_cons, List.map_nil, feed_cons]
    have hm : c ∈ (ofLetters terminals nonterminals none).nonterminals ↔ d.IsNonterminal c := by
      rw [nonterminals_ofLetters]
      exact hn c
    split_ifs with hc
    · have hcheck : (ofLetters terminals nonterminals none).check (.setStart c) =
          .ok (.startSet c) := if_pos (hm.2 hc)
      refine ⟨some c, ?_⟩
      rw [serve_of_ok hcheck]
      rfl
    · have hcheck : (ofLetters terminals nonterminals none).check (.setStart c) =
          .error (.unknownSymbol c) := if_neg (mt hm.1 hc)
      refine ⟨none, ?_⟩
      rw [serve_of_error hcheck]
      rfl

/-! ## Productions -/

/-- What holds of a grammar after some pairs: it has the letters of the definitions, and for
alternatives the normal pairs that occurred. -/
structure Grown (d : Definitions) (before : List (Located (Except DefinitionError (Char × String))))
    (g : Grammar) : Prop where
  terminals : ∀ c, c ∈ g.terminals ↔ d.IsTerminal c
  nonterminals : ∀ c, c ∈ g.nonterminals ↔ d.IsNonterminal c
  alternatives : ∀ lhs a, a ∈ g.alternatives lhs ↔ .ok (lhs, a.text) ∈ before.map (·.value)
    ∧ d.IsNonterminal lhs ∧ d.Normal a.text.toList

/-- The edit that a pair asks for. -/
def pairEdit (pair : Except DefinitionError (Char × String)) : Except DefinitionError Edit :=
  pair.map fun p => .addProduction p.1 p.2

section Productions

variable {d : Definitions} {before : List (Located (Except DefinitionError (Char × String)))}

theorem Grown.normal_iff (h : Grown d before g) {rhs : String} :
    d.Normal rhs.toList ↔ ∃ a, g.readAlternative? rhs = some a := by
  unfold readAlternative?
  rcases rhs.toList with _ | ⟨b, _ | ⟨c, _ | ⟨_, _⟩⟩⟩ <;>
    simp [Definitions.Normal, ← h.terminals, ← h.nonterminals]

theorem Grown.skip (h : Grown d before g)
    {pair : Located (Except DefinitionError (Char × String))}
    (hp : ∀ lhs rhs, pair.value = .ok (lhs, rhs) → d.IsNonterminal lhs → d.Normal rhs.toList →
      .ok (lhs, rhs) ∈ before.map (·.value)) : Grown d (before ++ [pair]) g where
  terminals := h.terminals
  nonterminals := h.nonterminals
  alternatives lhs a := by
    rw [h.alternatives, List.map_append, List.mem_append]
    refine and_congr_left fun ⟨hl, hn⟩ => ⟨.inl, fun hm => hm.elim id fun hm => ?_⟩
    exact hp lhs a.text (List.mem_singleton.1 hm).symm hl hn

theorem Grown.commit (h : Grown d before g) {place : Location} {lhs : Char} {a : Alternative}
    (hl : lhs ∈ g.nonterminals) (hn : d.Normal a.text.toList) :
    Grown d (before ++ [⟨place, .ok (lhs, a.text)⟩]) (g.commit (.productionAdded lhs a)) where
  terminals := h.terminals
  nonterminals c := by rw [nonterminals_commit_productionAdded, h.nonterminals]
  alternatives x b := by
    rw [alternatives_commit_productionAdded g a hl, List.map_append, List.mem_append]
    simp only [List.map_cons, List.map_nil, List.mem_singleton, Except.ok.injEq, Prod.mk.injEq]
    split_ifs with hx
    · subst hx
      rw [List.mem_append, List.mem_singleton, h.alternatives]
      refine ⟨fun hm => ?_, fun ⟨hm, hb⟩ => ?_⟩
      · rcases hm with ⟨hm, hb⟩ | rfl
        · exact ⟨.inl hm, hb⟩
        · exact ⟨.inr ⟨rfl, rfl⟩, (h.nonterminals x).1 hl, hn⟩
      · rcases hm with hm | ⟨-, he⟩
        · exact .inl ⟨hm, hb⟩
        · exact .inr (text_injective he)
    · rw [h.alternatives]
      simp [hx]

theorem Grown.check_unknown (h : Grown d before g) {lhs : Char} (hl : ¬ d.IsNonterminal lhs)
    (rhs : String) : g.check (.addProduction lhs rhs) = .error (.unknownSymbol lhs) := by
  simp [check, h.nonterminals, hl]

theorem Grown.check_invalid (h : Grown d before g) {lhs : Char} {rhs : String}
    (hl : d.IsNonterminal lhs) (hn : ¬ d.Normal rhs.toList) :
    g.check (.addProduction lhs rhs) = .error (.invalidProduction lhs rhs) := by
  have hread : g.readAlternative? rhs = none :=
    Option.eq_none_iff_forall_ne_some.2 fun a ha => hn (h.normal_iff.2 ⟨a, ha⟩)
  simp [check, h.nonterminals, hl, hread]

theorem Grown.check_normal (h : Grown d before g) {lhs : Char} {a : Alternative}
    (hl : d.IsNonterminal lhs) (hn : d.Normal a.text.toList) :
    g.check (.addProduction lhs a.text) =
      if .ok (lhs, a.text) ∈ before.map (·.value) then .error (.duplicateProduction lhs a.text)
      else .ok (.productionAdded lhs a) := by
  obtain ⟨b, hb⟩ := h.normal_iff.1 hn
  obtain rfl := text_injective (text_of_readAlternative? hb)
  have hknown : b ∈ g.alternatives lhs ↔ .ok (lhs, b.text) ∈ before.map (·.value) :=
    (h.alternatives lhs b).trans (and_iff_left ⟨hl, hn⟩)
  simp only [check, h.nonterminals, hl, hb, hknown, not_true, if_false]

theorem Grown.step (h : Grown d before g)
    (pair : Located (Except DefinitionError (Char × String))) :
    (g.serve (pairEdit pair.value)).2 = d.pairVerdict before pair
      ∧ Grown d (before ++ [pair]) (g.serve (pairEdit pair.value)).1 := by
  obtain ⟨place, reason | ⟨lhs, rhs⟩⟩ := pair
  · exact ⟨rfl, h.skip fun _ _ he => by cases he⟩
  simp only [pairEdit, Except.map, Definitions.pairVerdict]
  by_cases hl : d.IsNonterminal lhs
  · by_cases hn : d.Normal rhs.toList
    · obtain ⟨a, ha⟩ := h.normal_iff.1 hn
      obtain rfl := text_of_readAlternative? ha
      have hc := h.check_normal hl hn
      by_cases hm : .ok (lhs, a.text) ∈ before.map (·.value)
      · rw [if_pos hm] at hc
        rw [serve_of_error hc]
        refine ⟨by simp [hl, hn, hm], h.skip fun l r he _ _ => ?_⟩
        cases he
        exact hm
      · rw [if_neg hm] at hc
        rw [serve_of_ok hc]
        exact ⟨by simp [hl, hn, hm], h.commit ((h.nonterminals lhs).2 hl) hn⟩
    · rw [serve_of_error (h.check_invalid hl hn)]
      refine ⟨by simp [hl, hn], h.skip fun l r he _ hr => ?_⟩
      cases he
      exact absurd hr hn
  · rw [serve_of_error (h.check_unknown hl rhs)]
    refine ⟨by simp [hl], h.skip fun l r he hl' _ => ?_⟩
    cases he
    exact absurd hl' hl

end Productions

/-! ## All definitions -/

theorem productionEdits_eq (text : String) :
    Definitions.productionEdits text = (productionPairs text).map pairEdit := by
  unfold Definitions.productionEdits productionPairs
  rcases readProduction? text with _ | ⟨lhs, pieces⟩
  · rfl
  · simp only [List.map_map]
    rfl

theorem requests_eq (d : Definitions) : d.requests =
    (d.terminals.zipIdx 1).map (fun (c, i) => ⟨⟨"--terminals", i⟩, .ok (.addTerminal c)⟩) ++
    (d.nonterminals.zipIdx 1).map
      (fun (c, i) => ⟨⟨"--nonterminals", i⟩, .ok (.addNonterminal c)⟩) ++
    d.start.toList.map (fun c => ⟨⟨"--start", 0⟩, .ok (.setStart c)⟩) ++
    (d.pairs.zipIdx 1).map fun (pair, _) => ⟨pair.location, pairEdit pair.value⟩ := by
  have hpairs : (d.pairs.zipIdx 1).map (fun (pair, _) =>
        (⟨pair.location, pairEdit pair.value⟩ : Located (Except DefinitionError Edit))) =
      d.pairs.map fun pair => ⟨pair.location, pairEdit pair.value⟩ :=
    map_zipIdx_fst (fun pair : Located _ => Located.mk pair.location (pairEdit pair.value)) d.pairs
  rw [hpairs, Definitions.pairs, List.map_flatMap]
  simp only [Definitions.requests, productionEdits_eq, List.map_map, Function.comp_def]

theorem feed_requests (d : Definitions) :
    ∃ g, empty.feed d.requests = (g, d.failures) ∧ Grown d d.pairs g := by
  obtain ⟨terminals, ht, hfedT⟩ := feed_letters
    (fun kept => serve_addTerminal_ofLetters kept [] none) "--terminals" d.terminals
  obtain ⟨nonterminals, hn, hfedN⟩ := feed_letters
    (fun kept => serve_addNonterminal_ofLetters terminals kept none) "--nonterminals" d.nonterminals
  obtain ⟨start, hfedS⟩ := feed_start d terminals hn
  have hgrown : Grown d [] (ofLetters terminals nonterminals start) := by
    refine ⟨ht, fun c => ?_, fun lhs a => ?_⟩
    · rw [nonterminals_ofLetters]
      exact hn c
    · simp
  have hfedP := feed_eq_judge (fun pair _ => pair.location) d.pairVerdict
    (fun pair => pairEdit pair.value) (Grown d) (fun pair h => h.step pair) d.pairs hgrown
  have hstart : empty = ofLetters [] [] none := rfl
  refine ⟨_, ?_, hfedP.2⟩
  simp only [requests_eq, feed_append, hstart, hfedT, hfedN, hfedS]
  rw [hfedP.1, Definitions.failures]

/-- What is wrong with definitions is the list of their failures, each with its place, in the order
of the definitions; there is a grammar exactly if the list is empty. A text is read as a production
at its first equals sign, with one character before it when the blanks go, and pieces behind it. -/
theorem failures_grammar (d : Definitions) :
    (empty.feed d.requests).2 = d.failures
      ∧ (∀ fs, d.grammar = .error fs ↔ fs = d.failures ∧ fs ≠ [])
      ∧ ((∃ g, d.grammar = .ok g) ↔ d.failures = [])
      ∧ (∀ text, readProduction? text = none ↔ '=' ∉ text.toList
          ∨ ∃ left right, text.toList = left ++ '=' :: right ∧ '=' ∉ left
            ∧ (trimBlanks left).length ≠ 1)
      ∧ ∀ text lhs pieces, readProduction? text = some (lhs, pieces) ↔
        ∃ left right, text.toList = left ++ '=' :: right ∧ '=' ∉ left ∧ trimBlanks left = [lhs]
          ∧ pieces = (right.splitOn '|').map fun piece => String.ofList (trimBlanks piece) := by
  obtain ⟨g, hfed, -⟩ := feed_requests d
  refine ⟨by rw [hfed], fun fs => ?_, ?_, fun _ => readProduction?_eq_none_iff,
    fun _ _ _ => readProduction?_eq_some_iff⟩
  · rw [Definitions.grammar, hfed]
    rcases d.failures with _ | ⟨f, rest⟩
    · simp
    · simp only [Except.error.injEq]
      exact ⟨fun h => ⟨h.symm, by simp [← h]⟩, fun h => h.1.symm⟩
  · rw [Definitions.grammar, hfed]
    rcases d.failures with _ | ⟨f, rest⟩ <;> simp

-- the second terminal has the wrong case, so nothing is declared that `b` could stand for
example : Definitions.failures ⟨['a', 'B'], ['S'], some 'X', ["S=a|b", "nonsense"]⟩ =
    [⟨⟨"--terminals", 2⟩, .rejected (.invalidSymbol 'B')⟩,
      ⟨⟨"--start", 0⟩, .rejected (.unknownSymbol 'X')⟩,
      ⟨⟨"--production", 1⟩, .rejected (.invalidProduction 'S' "b")⟩,
      ⟨⟨"--production", 2⟩, .malformed "nonsense"⟩] := by
  decide +kernel

end Grammar

end Chomsky
