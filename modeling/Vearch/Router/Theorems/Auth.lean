import Vearch.Router.Auth

-- Which requests pass the check in front of the handlers, and what their roles may do.

variable {role : Role} {endpoint method : String}

theorem ite_of {α : Type} {Q : α → Prop} {c : Prop} [Decidable c] {a b : α} (ha : Q a) (hb : Q b) :
    Q (if c then a else b) := by
  split
  · exact ha
  · exact hb

def Queries (endpoint : String) : Prop :=
  Text.contains endpoint "query" || Text.contains endpoint "search"

instance : Decidable (Queries endpoint) :=
  inferInstanceAs (Decidable (_ = true))

-- What a request needs: to read for `GET` and for the queries and searches of documents, else to write.
def required (endpoint method : String) : Privilege :=
  if method = "GET" ∨ (parseResources endpoint method).1 = .document ∧ Queries endpoint then .readOnly else .writeOnly

def Computed (endpoint method : String) (p : Resource × Privilege) : Prop :=
  p.2 =
    if p.1 = .document then if Queries endpoint then .readOnly else .writeOnly
    else if method = "GET" then .readOnly else .writeOnly

theorem parseResources_computed : Computed endpoint method (parseResources endpoint method) := by
  unfold parseResources
  dsimp only
  -- the route of a database is the one case in which the resource depends on a condition
  repeat refine ite_of (Q := Computed endpoint method) (by first | rfl | (split <;> rfl)) ?_
  rfl

-- The source asks for another privilege at one place only: a document cannot be read by `GET` with `ReadOnly`.
theorem parseResources_required : (parseResources endpoint method).2 = required endpoint method ↔
    ¬((parseResources endpoint method).1 = .document ∧ method = "GET" ∧ ¬Queries endpoint) := by
  rw [parseResources_computed, required]
  by_cases hr : (parseResources endpoint method).1 = .document <;> by_cases hq : Queries endpoint <;>
    by_cases hm : method = "GET" <;> simp [hr, hq, hm]

namespace Role

-- The role has the privilege that the request needs.
def Covers (role : Role) (endpoint method : String) : Prop :=
  ∃ value, role.privileges (parseResources endpoint method).1 = some value ∧
    (value = .writeRead ∨ value = required endpoint method)

-- No entry of the role is too weak for the request; there may be none.
def Sufficient (role : Role) (endpoint method : String) : Prop :=
  ∀ value, role.privileges (parseResources endpoint method).1 = some value →
    value = .writeRead ∨ value = required endpoint method

theorem hasPermissionForResources_iff (h : role.name ≠ rootName) :
    role.hasPermissionForResources endpoint method = .ok () ↔
      ∃ value, role.privileges (parseResources endpoint method).1 = some value := by
  simp only [hasPermissionForResources, h, ↓reduceIte]
  cases hv : role.privileges (parseResources endpoint method).1 <;> simp

theorem covers_iff_sufficient (h : role.name ≠ rootName) :
    (role.hasPermissionForResources endpoint method = .ok () → role.Covers endpoint method) ↔
      role.Sufficient endpoint method := by
  rw [hasPermissionForResources_iff h]
  constructor
  · intro hc value hv
    obtain ⟨value', hv', hle⟩ := hc ⟨value, hv⟩
    cases hv.symm.trans hv'
    exact hle
  · intro hs hv
    obtain ⟨value, hv⟩ := hv
    exact ⟨value, hv, hs value hv⟩

end Role

namespace Auth

open Role

variable {service : Service} {r : Request}

theorem basicAuthMiddleware_iff (h : authenticate service r.header = .ok role) :
    basicAuthMiddleware service r = .ok () ↔
      role.hasPermissionForResources r.endpoint r.method = .ok () := by
  cases hp : role.hasPermissionForResources r.endpoint r.method
  case error =>
    simp [basicAuthMiddleware, h, hp, bind, Except.bind, throw, throwThe, MonadExceptOf.throw]
  case ok =>
    simp [basicAuthMiddleware, h, hp, bind, Except.bind, pure, Except.pure]

-- The handler runs with a covering privilege only, just if the role has no entry that is too weak.
theorem handler_covered_iff (role : Role) (hrole : role.name ≠ rootName) (endpoint method : String) :
    ((parseResources endpoint method).2 = required endpoint method ↔
      ¬((parseResources endpoint method).1 = .document ∧ method = "GET" ∧ ¬Queries endpoint)) ∧
    ((role.hasPermissionForResources endpoint method = .ok () → role.Covers endpoint method) ↔
      role.Sufficient endpoint method) ∧
    ∀ service header, authenticate service header = .ok role →
      ((basicAuthMiddleware service ⟨header, endpoint, method⟩ = .ok () →
        role.Covers endpoint method) ↔ role.Sufficient endpoint method) := by
  refine ⟨parseResources_required, covers_iff_sufficient hrole, ?_⟩
  intro service header h
  rw [basicAuthMiddleware_iff h]
  exact covers_iff_sufficient hrole

def single (role : Role) : Service where
  decode := .ok
  getUser name := .ok { name, password := some "secret", roleName := some role.name }
  roleByCache _ := .ok role

theorem handler_covered_documentAdmin :
    authenticate (single documentAdmin) "Basic jo:secret" = .ok documentAdmin ∧
    basicAuthMiddleware (single documentAdmin) ⟨"Basic jo:secret", "/document/upsert", "POST"⟩ = .ok () ∧
    documentAdmin.Covers "/document/upsert" "POST" := by
  have ha : authenticate (single documentAdmin) "Basic jo:secret" = .ok documentAdmin := rfl
  have hok : basicAuthMiddleware (single documentAdmin) ⟨"Basic jo:secret", "/document/upsert", "POST"⟩ = .ok () :=
    by decide
  have hs : documentAdmin.Sufficient "/document/upsert" "POST" := by
    intro value hv
    cases (show documentAdmin.privileges _ = some .writeRead by decide).symm.trans hv
    exact .inl rfl
  refine ⟨ha, hok, ?_⟩
  exact ((handler_covered_iff documentAdmin (by decide) "/document/upsert" "POST").2.2 _ _ ha).mpr hs hok

def reader : Role :=
  ofList "reader" [(.document, .readOnly)]

theorem reader_upserts :
    (basicAuthMiddleware (single reader) ⟨"Basic jo:secret", "/document/upsert", "POST"⟩).isOk ∧
    (parseResources "/document/upsert" "POST").1 = .document ∧ required "/document/upsert" "POST" = .writeOnly ∧
    reader.privileges .document = some .readOnly := by
  decide

end Auth
