import Mathlib.Data.List.Basic
import Trellis.Proofs.Solver.Fixpoint

/-! What labelling finds. Variables are fixed in order, each to the first of its
candidates that a solution has; so of all solutions that the candidates admit,
the one found has the earliest candidates, compared variable by variable. -/
namespace Trellis.Solver

namespace Candidates

/-- The first candidate of each variable. -/
def firsts (c : Candidates V) : Valuation V := fun v => (c.get? v).bind List.head?

theorem firsts_eq {c : Candidates V} (held : c.get? v = some [x]) : c.firsts v = some x := by
  rw [firsts, held]; rfl

/-- The candidates of the variables are listed in order of a rank. -/
def Ranked (rank : VarId → V → Nat) (vars : List VarId) (c : Candidates V) : Prop :=
  ∀ v ∈ vars, ∃ xs, c.get? v = some xs ∧ xs.Pairwise fun x y => rank v x < rank v y

theorem Ranked.within {c d : Candidates V} {vars : List VarId} (ranked : c.Ranked rank vars)
    (within : d.Within c) : d.Ranked rank vars := by
  intro v mem
  obtain ⟨xs, held, ordered⟩ := ranked v mem
  obtain ⟨ys, now, less⟩ := within.left v xs held
  exact ⟨ys, now, ordered.sublist less⟩

/-- No variable has two candidates. -/
def Decided (vars : List VarId) (c : Candidates V) : Prop :=
  ∀ v ∈ vars, ∀ xs, c.get? v = some xs → xs.length ≤ 1

end Candidates

/-- The ranks of the values of a valuation. -/
def ranks (rank : VarId → V → Nat) (t : Valuation V) (vars : List VarId) : List Nat :=
  vars.map fun v => ((t v).map (rank v)).getD 0

theorem undecided_none {c : Candidates V} (all : undecided? c vars = none) : c.Decided vars := by
  induction vars with
  | nil => simp [Candidates.Decided]
  | cons v rest ih =>
    unfold undecided? at all
    intro w mem xs held
    split at all
    · next values known =>
      split at all
      · cases all
      · next few =>
        rcases List.mem_cons.1 mem with rfl | later
        · rw [known] at held; cases held; omega
        · exact ih all w later xs held
    · next unknown =>
      rcases List.mem_cons.1 mem with rfl | later
      · rw [unknown] at held; cases held
      · exact ih all w later xs held

/-- The variables before the first undecided one are decided. -/
theorem undecided_some {c : Candidates V} {u : Undecided c} (first : undecided? c vars = some u) :
    ∃ before after, vars = before ++ u.var :: after ∧ c.Decided before := by
  induction vars with
  | nil => cases first
  | cons v rest ih =>
    have later (rest? : undecided? c rest = some u)
        (now : ∀ xs, c.get? v = some xs → xs.length ≤ 1) :
        ∃ before after, v :: rest = before ++ u.var :: after ∧ c.Decided before := by
      obtain ⟨before, after, rfl, decided⟩ := ih rest?
      refine ⟨v :: before, after, rfl, fun w mem xs held => ?_⟩
      rcases List.mem_cons.1 mem with rfl | mem
      · exact now xs held
      · exact decided w mem xs held
    unfold undecided? at first
    split at first
    · next values known =>
      split at first
      · cases first
        exact ⟨[], rest, rfl, by simp [Candidates.Decided]⟩
      · next few =>
        exact later first fun xs held => by rw [known] at held; cases held; omega
    · next unknown => exact later first fun xs held => by rw [unknown] at held; cases held

/-- Fixing a variable to one of its candidates takes the others away. -/
theorem fix_within {c : Candidates V} (u : Undecided c) (mem : value ∈ u.values) :
    (c.put u.var [value] (Candidates.mem_vars u.held)).Within c :=
  Candidates.put_within _ fun old held => by
    rw [u.held] at held
    cases held
    exact List.singleton_sublist.2 mem

/-- Lists that first differ where one has the smaller number. -/
private theorem append_cons_lex (before : List Nat) (less : i < j) (xs ys : List Nat) :
    List.Lex (· < ·) (before ++ i :: xs) (before ++ j :: ys) := by
  induction before with
  | nil => exact .rel less
  | cons k rest ih => exact .cons ih

/-- A variable with one candidate keeps it. -/
theorem firsts_of_single {c d : Candidates V} (within : d.Within c) (tidy : d.Tidy)
    (held : c.get? v = some [x]) : d.firsts v = some x := by
  obtain ⟨ys, now, less⟩ := within.left v [x] held
  have some_ : 0 < ys.length := List.length_pos_iff.2 (tidy.filled v ys now)
  rw [less.eq_of_length_le some_] at now
  exact Candidates.firsts_eq now

/-- Where the candidates are decided, whatever is left of them is the values of
every solution that they admit. -/
theorem firsts_eq_of_decided {c d : Candidates V} {t : Valuation V} (within : d.Within c)
    (tidy : d.Tidy) (decided : c.Decided vars) (ranked : c.Ranked rank vars)
    (valued : ∀ v ∈ vars, ∃ x, t v = some x) (admits : c.Admits t) :
    ∀ v ∈ vars, d.firsts v = t v := by
  intro v mem
  obtain ⟨x, value⟩ := valued v mem
  obtain ⟨xs, held, -⟩ := ranked v mem
  have among := admits v x xs value held
  rw [value]
  match xs, decided v mem xs held with
  | [y], _ => exact List.mem_singleton.1 among ▸ firsts_of_single within tidy held
  | [], _ => cases among

variable [DecidableEq V] {holds : Query V → Bool}

/-- What labelling `c` gives. -/
structure Labelling (holds : Query V → Bool) (atoms : List (Atom V)) (vars : List VarId)
    (c d : Candidates V) : Prop where
  within : d.Within c
  tidy : d.Tidy
  decided : d.Decided vars
  consistent : ∀ a ∈ atoms, Consistent holds d a

/-- A labelling fixes the first undecided variable to one of its candidates; no
candidate before it leads to a labelling. -/
theorem labelled_step {u : Undecided c} (first : undecided? c vars = some u)
    (found : labelled holds atoms vars c = some d) :
    ∃ before value after e, u.values = before ++ value :: after ∧
      settle holds atoms (c.put u.var [value] (Candidates.mem_vars u.held)) = some e ∧
      labelled holds atoms vars e.1 = some d ∧
      ∀ earlier ∈ before, ∀ f,
        settle holds atoms (c.put u.var [earlier] (Candidates.mem_vars u.held)) = some f →
          labelled holds atoms vars f.1 = none := by
  rw [labelled, first] at found
  obtain ⟨before, value, after, values, result, none_⟩ := List.findSome?_eq_some_iff.1 found
  cases ran : settle holds atoms (c.put u.var [value] (Candidates.mem_vars u.held)) with
  | none => simp [ran] at result
  | some e =>
    simp only [ran] at result
    refine ⟨before, value, after, e, values, ran, result, fun earlier mem f run => ?_⟩
    have lost := none_ earlier mem
    simpa only [run] using lost

theorem labelling_of_labelled (tidy : c.Tidy) (listed : ∀ a ∈ atoms, ∀ v ∈ a.vars, v ∈ c.vars)
    (consistent : ∀ a ∈ atoms, Consistent holds c a)
    (found : labelled holds atoms vars c = some d) : Labelling holds atoms vars c d := by
  induction c using labelled.induct vars with
  | case1 c all =>
    rw [labelled, all] at found
    cases found
    exact ⟨.refl _, tidy, undecided_none all, consistent⟩
  | case2 c u first ih =>
    obtain ⟨before, value, after, e, values, ran, rest, -⟩ := labelled_step first found
    have mem : value ∈ u.values := by rw [values]; simp
    have fixed := fix_within u mem
    have fixedTidy := tidy.put (Candidates.mem_vars u.held) (List.cons_ne_nil value [])
      (by simp)
    have within := (settle_within ran).trans fixed
    have last := ih value e.1 e.2 (settle_tidy fixedTidy ran)
      (fun a among v mentioned => within.vars ▸ listed a among v mentioned)
      (settle_consistent listed ran) rest
    exact ⟨last.within.trans within, last.tidy, last.decided, last.consistent⟩

/-- As long as the candidates admit a solution, labelling finds one. -/
theorem labelled_of_admits (satisfied : ∀ a ∈ atoms, a.Holds holds t)
    (valued : ∀ v ∈ vars, ∃ x, t v = some x) (admits : c.Admits t) :
    ∃ d, labelled holds atoms vars c = some d := by
  induction c using labelled.induct vars with
  | case1 c all => exact ⟨c, by rw [labelled, all]⟩
  | case2 c u first ih =>
    obtain ⟨before, after, split_, -⟩ := undecided_some first
    obtain ⟨x, value⟩ := valued u.var (by rw [split_]; simp)
    have fixed : (c.put u.var [x] (Candidates.mem_vars u.held)).Admits t :=
      admits.put _ fun y again => by rw [value] at again; cases again; simp
    obtain ⟨e, ran, still⟩ := settle_admits satisfied fixed
    obtain ⟨d, rest⟩ := ih x e.1 e.2 still
    have some_ : (labelled holds atoms vars c).isSome := by
      rw [labelled, first, List.findSome?_isSome_iff]
      exact ⟨x, admits _ x _ value u.held, by simp only [ran, rest]; rfl⟩
    exact Option.isSome_iff_exists.1 some_

/-- Of the solutions that the candidates admit, labelling finds the one with the
earliest candidates. -/
theorem labelled_least (tidy : c.Tidy) (listed : ∀ a ∈ atoms, ∀ v ∈ a.vars, v ∈ c.vars)
    (consistent : ∀ a ∈ atoms, Consistent holds c a) (ranked : c.Ranked rank vars)
    (satisfied : ∀ a ∈ atoms, a.Holds holds t) (valued : ∀ v ∈ vars, ∃ x, t v = some x)
    (admits : c.Admits t) (found : labelled holds atoms vars c = some d) :
    ranks rank d.firsts vars = ranks rank t vars ∨
      List.Lex (· < ·) (ranks rank d.firsts vars) (ranks rank t vars) := by
  have labelling := labelling_of_labelled tidy listed consistent found
  induction c using labelled.induct vars with
  | case1 c all =>
    have same := firsts_eq_of_decided labelling.within labelling.tidy (undecided_none all) ranked
      valued admits
    exact .inl (List.map_congr_left fun v mem => by rw [same v mem])
  | case2 c u first ih =>
    obtain ⟨before, value, after, e, values, ran, rest, lost⟩ := labelled_step first found
    obtain ⟨early, late, split_, decided⟩ := undecided_some first
    have atSplit : u.var ∈ vars := by rw [split_]; simp
    obtain ⟨y, given⟩ := valued u.var atSplit
    have fixedAdmits : (c.put u.var [y] (Candidates.mem_vars u.held)).Admits t :=
      admits.put _ fun z again => by rw [given] at again; cases again; simp
    obtain ⟨f, run, still⟩ := settle_admits satisfied fixedAdmits
    have mem := admits u.var y u.values given u.held
    rw [values, List.mem_append, List.mem_cons] at mem
    have taken : value ∈ u.values := by rw [values]; simp
    have fixed := fix_within u taken
    have fixedTidy := tidy.put (Candidates.mem_vars u.held) (List.cons_ne_nil value []) (by simp)
    have within := (settle_within ran).trans fixed
    have settledTidy := settle_tidy fixedTidy ran
    have settledListed : ∀ a ∈ atoms, ∀ v ∈ a.vars, v ∈ e.1.vars :=
      fun a among v mentioned => within.vars ▸ listed a among v mentioned
    have fixedListed : ∀ a ∈ atoms, ∀ v ∈ a.vars,
        v ∈ (c.put u.var [value] (Candidates.mem_vars u.held)).vars := listed
    have settledConsistent := settle_consistent fixedListed ran
    have inner := labelling_of_labelled settledTidy settledListed settledConsistent rest
    rcases mem with earlier | rfl | later
    · -- a candidate before the one taken would have led to a labelling
      obtain ⟨g, some_⟩ := labelled_of_admits satisfied valued still
      rw [lost y earlier f run] at some_
      cases some_
    · rw [run] at ran
      cases ran
      exact ih y f.1 f.2 settledTidy settledListed settledConsistent (ranked.within within) still
        rest inner
    · obtain ⟨xs, held, ordered⟩ := ranked u.var atSplit
      rw [u.held, values] at held
      cases held
      have less : rank u.var value < rank u.var y :=
        (List.pairwise_cons.1 (List.pairwise_append.1 ordered).2.1).1 y later
      have among {v : VarId} (mem : v ∈ early) : v ∈ vars := by rw [split_]; simp [mem]
      have same := firsts_eq_of_decided labelling.within labelling.tidy decided
        (fun v mem => ranked v (among mem)) (fun v mem => valued v (among mem)) admits
      have now : d.firsts u.var = some value :=
        firsts_of_single (inner.within.trans (settle_within ran)) inner.tidy
          (by rw [Candidates.get?_put, if_pos rfl])
      have agree : ranks rank d.firsts early = ranks rank t early :=
        List.map_congr_left fun v mem => by rw [same v mem]
      simp only [ranks, split_, List.map_append, List.map_cons] at agree ⊢
      rw [agree, now, given]
      exact .inr (append_cons_lex _ less _ _)

/-- The place of a value among the candidates of a variable. -/
def Candidates.position (c : Candidates V) (v : VarId) (x : V) : Nat :=
  ((c.get? v).getD []).idxOf x

theorem Candidates.ranked_position {c : Candidates V} {vars : List VarId} (tidy : c.Tidy)
    (known : ∀ v ∈ vars, ∃ xs, c.get? v = some xs) : c.Ranked c.position vars := by
  intro v mem
  obtain ⟨xs, held⟩ := known v mem
  refine ⟨xs, held, List.pairwise_iff_getElem.2 fun i j inI inJ before => ?_⟩
  have place (k : Nat) (inK : k < xs.length) : c.position v xs[k] = k := by
    rw [Candidates.position, held, Option.getD_some, (tidy.distinct v xs held).idxOf_getElem]
  rw [place i inI, place j inJ]
  exact before

/-- Valuations taken from the candidates are the same when the places are. -/
theorem eq_of_positions {c : Candidates V} {s t : Valuation V} {vars : List VarId}
    (known : ∀ v ∈ vars, ∃ xs, c.get? v = some xs)
    (first : c.Admits s) (valued : ∀ v ∈ vars, ∃ x, s v = some x)
    (valued' : ∀ v ∈ vars, ∃ x, t v = some x)
    (same : ranks c.position s vars = ranks c.position t vars) : ∀ v ∈ vars, s v = t v := by
  intro v mem
  obtain ⟨x, left⟩ := valued v mem
  obtain ⟨y, right⟩ := valued' v mem
  obtain ⟨xs, held⟩ := known v mem
  have places := List.map_inj_left.1 same v mem
  simp only [left, right, Option.map_some, Option.getD_some, Candidates.position, held] at places
  rw [left, right, (List.idxOf_inj (first v x xs left held)).1 places]

end Trellis.Solver
