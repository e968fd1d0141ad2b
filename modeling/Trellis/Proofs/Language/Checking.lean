import Trellis.Proofs.Language.Accepted

/-! Two walks over one expression. What two walks find is put together from what they find
at each place in the same way, so a relation that is kept by putting reports together holds
between the reports of the walks if it holds between those of the places. Two walks of one
scope differ in the properties they look up and in the dynamic variables that count as
declared; all else they see alike. -/
namespace Trellis

namespace Report

theorem append_assoc (r s t : Report) : r ++ s ++ t = r ++ (s ++ t) :=
  Report.mk.injEq .. ▸ ⟨List.append_assoc .., List.append_assoc ..⟩

/-- A relation between reports that is kept by putting reports together. -/
structure Merges (R : Report → Report → Prop) : Prop where
  empty : R .empty .empty
  append : R r r' → R s s' → R (r ++ s) (r' ++ s')

end Report

namespace CheckContext

/-- What is wrong with relating two variables through a property. -/
def checkRelation (c : CheckContext) (b : Bound) (p : PropId) (origin : Site) : Report :=
  (match c.definition.relationProblem p (c.available b) with
    | some problem => reportAt origin (.relation problem)
    | none => .empty) ++ c.needAll b p

/-- What is wrong with filtering a variable through a property. -/
def checkPredicate (c : CheckContext) (b : Bound) (p : PropId) (origin : Site) : Report :=
  (match c.definition.predicateProblem p (c.available b) with
    | some problem => reportAt origin (.predicate problem)
    | none => .empty) ++ c.needAll b p

/-- Two walks of one scope that find related things wherever they look up a property or a
dynamic variable. -/
structure Related (c c' : CheckContext) (R : Report → Report → Prop) : Prop
    extends Report.Merges R where
  owner : c'.owner = c.owner
  params : c'.params = c.params
  name : c'.name = c.name
  site : c'.site = c.site
  kinds : c'.definition.kinds = c.definition.kinds
  dynVars : c'.definition.dynVars = c.definition.dynVars
  metadata : c'.definition.metadata = c.definition.metadata
  expect : ∀ ok m, R (c.expect ok m) (c.expect ok m)
  dynVar : ∀ b v, R
    (c.expect ((c.available b).contains v)
      (.dynVarNotAvailable (c.definition.dynVarName v) c.name) ++ c.need b v)
    (c'.expect ((c'.available b).contains v)
      (.dynVarNotAvailable (c'.definition.dynVarName v) c'.name) ++ c'.need b v)
  call : ∀ b p args, R (c.checkCall b p args) (c'.checkCall b p args)
  relation : ∀ b p origin, R (c.checkRelation b p origin) (c'.checkRelation b p origin)
  predicate : ∀ b p origin, R (c.checkPredicate b p origin) (c'.checkPredicate b p origin)

namespace Related
variable {c c' : CheckContext} {R : Report → Report → Prop} (related : c.Related c' R)
include related

theorem expect_same (ok : Bool) (m : Mistake) : R (c.expect ok m) (c'.expect ok m) := by
  have same : c'.expect ok m = c.expect ok m := by
    unfold CheckContext.expect
    rw [related.site]
  rw [same]
  exact related.expect ok m

theorem field (node : Expr) (ok : KindInfo → Bool) (m : KindInfo → Mistake) :
    R (c.checkField node ok m) (c'.checkField node ok m) := by
  unfold checkField Definition.kind?
  rw [related.owner, related.kinds]
  split
  · exact related.expect_same _ _
  · exact related.empty

theorem kind (k : KindId) (m : Mistake) : R (c.checkKind k m) (c'.checkKind k m) := by
  unfold checkKind Definition.kind?
  rw [related.kinds]
  exact related.expect_same _ _

mutual

/-- What two walks find in an expression is related. -/
theorem check (b : Bound) : (e : Expr) → R (c.check b e) (c'.check b e)
  | .lit _ | .self | .raise _ => related.empty
  | .arg i => by
    rw [CheckContext.check, CheckContext.check, related.params, related.name]
    exact related.expect_same _ _
  | .loc slot => related.expect_same _ _
  | .letIn slot value body =>
    related.append (check b value) (check { b with locals := slot :: b.locals } body)
  | .map items slot body =>
    related.append (check b items) (check { b with locals := slot :: b.locals } body)
  | .matchKind value arms => related.append (check b value) (check_arms b arms)
  | .dynVar v => related.dynVar b v
  | .bindDynVar v value body => by
    refine related.append (related.append (check b value) ?_)
      (check { b with dynVars := v :: b.dynVars } body)
    unfold Definition.dynVar?
    rw [related.dynVars]
    exact related.expect_same _ _
  | .call receiver p args =>
    related.append (related.append (check b receiver) (check_all b args)) (related.call b p args.length)
  | .child node i => related.append (check b node) (related.field _ _ _)
  | .logicVar node i => related.append (check b node) (related.field _ _ _)
  | .metadataFlag entity field => by
    refine related.append (check b entity) ?_
    unfold Definition.metadataFields
    rw [related.metadata]
    exact related.expect_same _ _
  | .envGet env symbol _ require => by
    refine related.append (related.append (check b env) (check b symbol)) ?_
    unfold declaredFields Definition.metadataFields
    rw [related.metadata]
    exact related.expect_same _ _
  | .cast value k _ => related.append (check b value) (related.kind _ _)
  | .bind x y none _ => related.append (check b x) (check b y)
  | .bind x y (some p) origin => by
    rw [CheckContext.check, CheckContext.check, Report.append_assoc,
      Report.append_assoc _ _ (c'.needAll b p)]
    exact related.append (related.append (check b x) (check b y)) (related.relation b p origin)
  | .predicate v p origin => by
    rw [CheckContext.check, CheckContext.check, Report.append_assoc,
      Report.append_assoc _ _ (c'.needAll b p)]
    exact related.append (check b v) (related.predicate b p origin)
  | .children e | .parent e | .text e | .nodeEnv e | .childrenEnv e | .not e | .isNull e
  | .len e | .solve e | .logicValue e => check b e
  | .binary _ x y | .domain x y _ => related.append (check b x) (check b y)
  | .ite x y z => related.append (related.append (check b x) (check b y)) (check b z)
  | .array es | .all es | .any es => check_all b es

theorem check_all (b : Bound) : (es : List Expr) → R (c.checkAll b es) (c'.checkAll b es)
  | [] => related.empty
  | e :: rest => related.append (check b e) (check_all b rest)

theorem check_arms (b : Bound) : (arms : List (ArmPattern × Expr)) →
    R (c.checkArms b arms) (c'.checkArms b arms)
  | [] => related.empty
  | (p, e) :: rest => by
    refine related.append (related.append ?_ (check { b with locals := p.slot :: b.locals } e))
      (check_arms b rest)
    cases p.kind with
    | some k => exact related.kind _ _
    | none => exact related.empty

end

/-- What two walks find in an action is related. -/
theorem check_action (types : c'.staticType = c.staticType)
    (reference : ∀ p, R (c.checkReference p) (c'.checkReference p)) (a : EnvAction) :
    R (c.checkAction a) (c'.checkAction a) := by
  have body (e : Expr) : R (c.checkBody e) (c'.checkBody e) := related.check ⟨[], []⟩ e
  cases a with
  | setInitialEnv env => exact body env
  | addToEnv key value metadata dest =>
    unfold checkAction
    rw [types]
    have entry := related.append (related.append (related.expect_same
      ((c.staticType key).all (· == .symbol)) .keyNotSymbol) (body key)) (body value)
    refine related.append entry ?_
    cases dest with
    | some dest => exact body dest
    | none => exact related.empty
  | addEnv => exact related.empty
  | referenceUnit name => exact related.empty
  | reference nodes through metadata rebind =>
    refine related.append (related.append (body nodes) ?_) (reference through)
    rcases rebind with _ | ⟨old, new⟩
    · exact related.empty
    · exact related.append (body old) (body new)

end Related
end CheckContext
end Trellis
