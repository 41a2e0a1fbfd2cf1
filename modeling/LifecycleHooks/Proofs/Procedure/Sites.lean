import LifecycleHooks.Proofs.Attempt
import LifecycleHooks.Proofs.Procedure.Typing
import Mathlib.Data.List.Forall2
import Mathlib.Data.List.Nodup

/-!
# Every expression has its site

The expressions of a body and their sites are listed by two walks.  Both visit the same
expressions in the same order, and the only expressions with a site of their own are the
whole values of declarations, of returns and of assignments to the implicit result.
-/

namespace LifecycleHooks

section Values

variable (resultBinding : Option BindingId)

mutual

/-- An expression is the whole value of a statement inside a statement, where values have
the given site. -/
inductive Stmt.ValueAt : Stmt → ContextSite → Expr → Prop where
  | var (note : Note) (name : String) (value : Expr) (type : Option TypeId) (binding : Option BindingId) :
      Stmt.ValueAt (.declare note name (some value) type true binding) .varInit value
  | let (note : Note) (name : String) (value : Expr) (type : Option TypeId) (binding : Option BindingId) :
      Stmt.ValueAt (.declare note name (some value) type false binding) .letInit value
  | return (note : Note) (value : Expr) : Stmt.ValueAt (.return note (some value)) .returnValue value
  | result (note : Note) {target : Expr} (isResult : target.isResult resultBinding = true) (value : Expr) :
      Stmt.ValueAt (.assign note target value) .resultAssignment value
  | block {block : Block} {site : ContextSite} {value : Expr} (inside : Block.ValueAt block site value) :
      Stmt.ValueAt (.block block) site value
  | yes (note : Note) (condition : Expr) {yes : Block} (no : Option Block) {site : ContextSite} {value : Expr}
      (inside : Block.ValueAt yes site value) : Stmt.ValueAt (.branch note condition yes no) site value
  | no (note : Note) (condition : Expr) (yes : Block) {no : Block} {site : ContextSite} {value : Expr}
      (inside : Block.ValueAt no site value) : Stmt.ValueAt (.branch note condition yes (some no)) site value
  | loop (note : Note) (condition : Expr) {body : Block} {site : ContextSite} {value : Expr}
      (inside : Block.ValueAt body site value) : Stmt.ValueAt (.loop note condition body) site value

/-- An expression is the whole value of a statement inside a block, where values have the
given site. -/
inductive Block.ValueAt : Block → ContextSite → Expr → Prop where
  | mk (note : Note) {statements : List Stmt} {statement : Stmt} (member : statement ∈ statements)
      {site : ContextSite} {value : Expr} (inside : Stmt.ValueAt statement site value) :
      Block.ValueAt (.mk note statements) site value

end

end Values

section Nesting

/-- From the outside in, an expression comes before what is inside it. -/
theorem Expr.withParts_eq (expr : Expr) : expr.withParts = expr :: partsOf expr.children := by
  cases expr <;> simp [withParts, partsOf, children]

/-- Expressions stand at some other place. -/
def otherSites (exprs : List Expr) : Sites := exprs.map fun expr => (expr.id, .other)

mutual

/-- Only the outermost expression stands at the site. -/
theorem Expr.sites_eq (site : ContextSite) : (expr : Expr) →
    expr.sites site = (expr.id, site) :: otherSites (partsOf expr.children)
  | .var .. => rfl
  | .integer .. => rfl
  | .boolean .. => rfl
  | .call note callee args => congrArg ((note.id, site) :: ·) (sitesOfParts_eq args)
  | .field note subject name => by
      have inside := subject.sites_eq .other
      simp [Expr.sites, inside, otherSites, partsOf, Expr.children, Expr.withParts_eq, Expr.id, Expr.note]

theorem sitesOfParts_eq : (exprs : List Expr) → sitesOfParts exprs = otherSites (partsOf exprs)
  | [] => rfl
  | expr :: rest => by
      have here := expr.sites_eq .other
      have others := sitesOfParts_eq rest
      simp [sitesOfParts, here, others, otherSites, partsOf, Expr.withParts_eq]

end

end Nesting

section Tagging

/-- An entry is for an expression, whose value is at the site unless the site is some other
place. -/
def Tags (valueAt : ContextSite → Expr → Prop) (entry : NodeId × ContextSite) (expr : Expr) : Prop :=
  entry.1 = expr.id ∧ (entry.2 = .other ∨ valueAt entry.2 expr)

variable {valueAt weaker : ContextSite → Expr → Prop} {sites others : Sites} {exprs rest : List Expr}

theorem tags_mono (tags : List.Forall₂ (Tags valueAt) sites exprs)
    (still : ∀ site expr, valueAt site expr → weaker site expr) : List.Forall₂ (Tags weaker) sites exprs :=
  tags.imp fun entry expr tag => ⟨tag.1, tag.2.imp_right (still entry.2 expr)⟩

theorem tags_append (first : List.Forall₂ (Tags valueAt) sites exprs)
    (second : List.Forall₂ (Tags valueAt) others rest) :
    List.Forall₂ (Tags valueAt) (sites ++ others) (exprs ++ rest) :=
  List.rel_append first second

theorem tags_other (exprs : List Expr) : List.Forall₂ (Tags valueAt) (otherSites exprs) exprs := by
  induction exprs with
  | nil => exact .nil
  | cons expr rest ih => exact .cons ⟨rfl, .inl rfl⟩ ih

theorem Expr.sites_tags (expr : Expr) {site : ContextSite} (whole : site = .other ∨ valueAt site expr) :
    List.Forall₂ (Tags valueAt) (expr.sites site) expr.withParts := by
  rw [expr.sites_eq, expr.withParts_eq]
  exact .cons ⟨rfl, whole⟩ (tags_other _)

theorem sitesOfParts_tags (exprs : List Expr) : List.Forall₂ (Tags valueAt) (sitesOfParts exprs) (partsOf exprs) := by
  rw [sitesOfParts_eq]
  exact tags_other _

theorem valueSites_tags {value : Option Expr} {site : ContextSite} (whole : ∀ expr ∈ value, valueAt site expr) :
    List.Forall₂ (Tags valueAt) (valueSites site value) (partsOf value.toList) := by
  cases value with
  | none => exact .nil
  | some expr => simpa [valueSites, partsOf] using expr.sites_tags (.inr (whole expr rfl))

theorem exists_tag (tags : List.Forall₂ (Tags valueAt) sites exprs) {expr : Expr} (member : expr ∈ exprs) :
    ∃ site, (expr.id, site) ∈ sites ∧ (site = .other ∨ valueAt site expr) := by
  induction tags with
  | nil => cases member
  | @cons entry first sites exprs tag _ ih =>
      rcases List.mem_cons.mp member with rfl | behind
      · exact ⟨entry.2, by simp [← tag.1], tag.2⟩
      · obtain ⟨site, listed, whole⟩ := ih behind
        exact ⟨site, List.mem_cons_of_mem entry listed, whole⟩

variable (resultBinding : Option BindingId)

mutual

/-- Every expression of a statement has an entry in its turn, and only whole values have
sites of their own. -/
theorem Stmt.sites_tags : (statement : Stmt) →
    List.Forall₂ (Tags (statement.ValueAt resultBinding)) (statement.sites resultBinding) statement.exprs
  | .block block => tags_mono block.sites_tags fun _ _ => .block
  | .declare note name value type mutability binding => by
      refine valueSites_tags fun expr isValue => ?_
      obtain rfl := isValue
      cases mutability
      · exact .let note name expr type binding
      · exact .var note name expr type binding
  | .assign note target value => by
      refine tags_append (target.sites_tags (.inl rfl)) (value.sites_tags ?_)
      by_cases isResult : target.isResult resultBinding = true
      · rw [if_pos isResult]
        exact .inr (.result note isResult value)
      · exact .inl (if_neg isResult)
  | .expr _ inner => inner.sites_tags (.inl rfl)
  | .return note value => valueSites_tags fun expr isValue => by
      obtain rfl := isValue
      exact .return note expr
  | .branch note condition yes none =>
      tags_append (condition.sites_tags (.inl rfl)) (tags_mono yes.sites_tags fun _ _ => .yes note condition none)
  | .branch note condition yes (some no) =>
      tags_append
        (tags_append (condition.sites_tags (.inl rfl))
          (tags_mono yes.sites_tags fun _ _ => .yes note condition (some no)))
        (tags_mono no.sites_tags fun _ _ => .no note condition yes)
  | .loop note condition body =>
      tags_append (condition.sites_tags (.inl rfl)) (tags_mono body.sites_tags fun _ _ => .loop note condition)
  | .break _ => .nil
  | .continue _ => .nil
  | .spawn _ _ _ args => sitesOfParts_tags args

/-- Every expression of a block has an entry in its turn, and only whole values have sites of
their own. -/
theorem Block.sites_tags : (block : Block) →
    List.Forall₂ (Tags (block.ValueAt resultBinding)) (block.sites resultBinding) block.exprs
  | .mk note statements => tags_mono (sitesOf_tags statements) fun _ _ ⟨_, member, inside⟩ => .mk note member inside

theorem sitesOf_tags : (statements : List Stmt) →
    List.Forall₂ (Tags fun site expr => ∃ statement ∈ statements, statement.ValueAt resultBinding site expr)
      (sitesOf resultBinding statements) (exprsOf statements)
  | [] => .nil
  | statement :: rest => by
      refine tags_append (tags_mono statement.sites_tags fun _ _ inside => ?_)
        (tags_mono (sitesOf_tags rest) fun _ _ ⟨other, member, inside⟩ => ?_)
      · exact ⟨statement, List.mem_cons_self, inside⟩
      · exact ⟨other, List.mem_cons_of_mem statement member, inside⟩

end

end Tagging

section Completeness

variable {resultBinding : Option BindingId}

theorem Expr.mem_sites (expr : Expr) (site : ContextSite) : (expr.id, site) ∈ expr.sites site := by
  rw [expr.sites_eq]
  exact List.mem_cons_self

theorem mem_sitesOf {statements : List Stmt} {statement : Stmt} (member : statement ∈ statements) :
    statement.sites resultBinding ⊆ sitesOf resultBinding statements := by
  induction statements with
  | nil => cases member
  | cons other rest ih =>
      rcases List.mem_cons.mp member with rfl | behind
      · exact List.subset_append_left _ _
      · exact List.subset_append_of_subset_right _ (ih behind)

mutual

/-- The whole value of a statement stands at its site. -/
theorem Stmt.ValueAt.mem_sites {statement : Stmt} {site : ContextSite} {value : Expr} :
    statement.ValueAt resultBinding site value →
      site ≠ .other ∧ (value.id, site) ∈ statement.sites resultBinding
  | .var _ _ value _ _ => ⟨nofun, value.mem_sites .varInit⟩
  | .let _ _ value _ _ => ⟨nofun, value.mem_sites .letInit⟩
  | .return _ value => ⟨nofun, value.mem_sites .returnValue⟩
  | .result note isResult value => by
      refine ⟨nofun, List.mem_append_right _ ?_⟩
      rw [if_pos isResult]
      exact value.mem_sites .resultAssignment
  | .block inside => inside.mem_sites
  | .yes _ _ no inside => by
      obtain ⟨own, member⟩ := inside.mem_sites
      cases no with
      | none => exact ⟨own, List.mem_append_right _ member⟩
      | some no => exact ⟨own, List.mem_append_left _ (List.mem_append_right _ member)⟩
  | .no _ _ _ inside => ⟨inside.mem_sites.1, List.mem_append_right _ inside.mem_sites.2⟩
  | .loop _ _ inside => ⟨inside.mem_sites.1, List.mem_append_right _ inside.mem_sites.2⟩

theorem Block.ValueAt.mem_sites {block : Block} {site : ContextSite} {value : Expr} :
    block.ValueAt resultBinding site value → site ≠ .other ∧ (value.id, site) ∈ block.sites resultBinding
  | .mk _ member inside => ⟨inside.mem_sites.1, mem_sitesOf member inside.mem_sites.2⟩

end

end Completeness

section Lookup

variable {resultBinding : Option BindingId} {block : Block}

/-- The sites of a block are listed for its expressions, in their order. -/
theorem Block.sites_ids (resultBinding : Option BindingId) (block : Block) :
    (block.sites resultBinding).map Prod.fst = block.exprs.map Expr.id := by
  have tags := block.sites_tags resultBinding
  refine List.forall₂_eq_eq_eq ▸ ?_
  exact List.forall₂_map_left_iff.mpr (List.forall₂_map_right_iff.mpr (tags.imp fun _ _ tag => tag.1))

/-- Where no two expressions have the same number, an expression has the site of which it is
the whole value, and stands at some other place if there is none. -/
theorem Block.lookup_sites (distinct : (block.exprs.map Expr.id).Nodup) {expr : Expr}
    (member : expr ∈ block.exprs) :
    ∃ site, (block.sites resultBinding).lookup expr.id = some site ∧
      ∀ own, block.ValueAt resultBinding own expr ↔ site = own ∧ site ≠ .other := by
  have keys := block.sites_ids resultBinding
  have found {site : ContextSite} (listed : (expr.id, site) ∈ block.sites resultBinding) :
      (block.sites resultBinding).lookup expr.id = some site := lookup_of_mem (keys ▸ distinct) listed
  obtain ⟨site, listed, whole⟩ := exists_tag (block.sites_tags resultBinding) member
  refine ⟨site, found listed, fun own => ⟨fun isValue => ?_, ?_⟩⟩
  · obtain ⟨notOther, ownListed⟩ := isValue.mem_sites
    obtain rfl := Option.some.inj ((found listed).symm.trans (found ownListed))
    exact ⟨rfl, notOther⟩
  · rintro ⟨rfl, notOther⟩
    exact whole.resolve_left notOther

end Lookup
end LifecycleHooks
