import BlueDB.Lib.Separated

/-!
# Tenants and their namespaces

A request names its tenant by a header. Each tenant has an engine of its own, which
publishes under the namespace of the tenant. A request of the catalog names the
namespace, and is authorized for the tenant that the namespace is mapped back to.
-/

namespace BlueDB.Lakehouse

def defaultTenant : String := "_"

/-- The reserved tenant publishes under `default`, every other under its own name. -/
def namespaceForTenant (tenant : String) : String :=
  if tenant = defaultTenant then "default" else tenant

def tenantForNamespace (ns : String) : String :=
  if ns = "default" then defaultTenant else ns

inductive AppError
  | invalidTenant (tenant : String)
  | forbidden (tenant : String)
  | notMirrored (ns : String)
  deriving DecidableEq

/-- Letters, digits, `_` and `-`. -/
def isTenantChar (c : Char) : Bool := c.isAlphanum || c = '_' || c = '-'

def validTenant (tenant : String) : Bool :=
  decide (tenant = defaultTenant) || tenant.toList.all isTenantChar

/-- The text without the blanks around it. -/
def trim (s : String) : String :=
  let left := s.toList.dropWhile Char.isWhitespace
  .ofList (left.reverse.dropWhile Char.isWhitespace).reverse

/-- The tenant that the header names, the reserved one when it is absent or blank. -/
def requestedTenant (header : Option String) : String :=
  ((header.map trim).filter fun s => s ≠ "").getD defaultTenant

variable (allowsTenant : String → Bool)

def authorizeTenant (tenant : String) : Except AppError Unit :=
  if allowsTenant tenant then .ok () else .error (.forbidden tenant)

/-- The tenant of a request. -/
def resolveTenant (header : Option String) : Except AppError String :=
  let tenant := requestedTenant header
  if validTenant tenant then do
    authorizeTenant allowsTenant tenant
    return tenant
  else .error (.invalidTenant tenant)

def Accepted (tenant : String) : Prop :=
  ∃ allowsTenant header, resolveTenant allowsTenant header = .ok tenant

structure LakehouseEngine where
  tenant : String
  namespace_ : String
  deriving DecidableEq

namespace LakehouseEngine

def reopen (tenant : String) : LakehouseEngine := ⟨tenant, namespaceForTenant tenant⟩

end LakehouseEngine

def registryPath (root ns : String) : String := root ++ "/" ++ ns ++ "/_registry.json"

/-- The directory of a table. -/
def tableRoot (root ns table : String) : String := root ++ "/" ++ ns ++ "/" ++ table

/-- The paths that the engine reads and writes: its registry and what is below the
directory of a table. -/
inductive LakehouseEngine.Uses (root : String) (e : LakehouseEngine) : String → Prop
  | registry : Uses root e (registryPath root e.namespace_)
  | table (table file : String) : Uses root e (tableRoot root e.namespace_ table ++ "/" ++ file)

/-- The engine under a namespace; the engines stand in the order of a hash map. -/
def engineForNamespace (engines : List LakehouseEngine) (ns : String) : Option LakehouseEngine :=
  engines.find? fun e => e.namespace_ = ns

/-- The engine whose tables a request of the catalog is given. -/
def catalogEngine (engines : List LakehouseEngine) (ns : String) :
    Except AppError LakehouseEngine := do
  authorizeTenant allowsTenant (tenantForNamespace ns)
  match engineForNamespace engines ns with
  | some e => return e
  | none => .error (.notMirrored ns)

variable {allowsTenant} {tenant tenant' : String}

theorem tenantForNamespace_namespaceForTenant :
    tenantForNamespace (namespaceForTenant tenant) = tenant ↔ tenant ≠ "default" := by
  unfold tenantForNamespace namespaceForTenant
  by_cases hdefault : tenant = defaultTenant
  · subst tenant
    simp [defaultTenant]
  · rw [if_neg hdefault]
    by_cases hname : tenant = "default"
    · subst tenant
      simp [defaultTenant]
    · simp [hname]

theorem namespaceForTenant_inj (h : tenant ≠ "default") (h' : tenant' ≠ "default")
    (heq : namespaceForTenant tenant = namespaceForTenant tenant') : tenant = tenant' := by
  rw [← tenantForNamespace_namespaceForTenant.mpr h, heq]
  exact tenantForNamespace_namespaceForTenant.mpr h'

theorem requestedTenant_ne_empty (header : Option String) : requestedTenant header ≠ "" := by
  unfold requestedTenant
  cases hname : (header.map trim).filter fun s => decide (s ≠ "") with
  | none => simp [defaultTenant]
  | some name =>
    obtain ⟨-, hne⟩ := Option.filter_eq_some_iff.mp hname
    simpa using hne

theorem Accepted.valid (h : Accepted tenant) : validTenant tenant = true ∧ tenant ≠ "" := by
  obtain ⟨allows, header, hresolve⟩ := h
  unfold resolveTenant at hresolve
  dsimp only at hresolve
  split_ifs at hresolve with hvalid
  cases hauth : authorizeTenant allows (requestedTenant header) with
  | error e =>
    rw [hauth] at hresolve
    exact absurd hresolve nofun
  | ok _ =>
    rw [hauth] at hresolve
    obtain rfl : requestedTenant header = tenant := Except.ok.inj hresolve
    exact ⟨hvalid, requestedTenant_ne_empty header⟩

theorem not_mem_slash_of_valid (h : validTenant tenant = true) : '/' ∉ tenant.toList := by
  unfold validTenant at h
  rw [Bool.or_eq_true, decide_eq_true_iff, List.all_eq_true] at h
  rcases h with rfl | hall
  · decide
  · intro hmem
    exact absurd (hall '/' hmem) (by decide)

theorem Accepted.namespace_no_slash (h : Accepted tenant) :
    '/' ∉ (namespaceForTenant tenant).toList := by
  unfold namespaceForTenant
  split_ifs
  · decide
  · exact not_mem_slash_of_valid h.valid.1

namespace LakehouseEngine

variable {root path : String} {e e' : LakehouseEngine}

theorem Uses.below (h : e.Uses root path) :
    ∃ rest, path = root ++ "/" ++ e.namespace_ ++ "/" ++ rest := by
  cases h with
  | registry => exact ⟨"_registry.json", by simp [registryPath, String.append_assoc]⟩
  | table table file => exact ⟨table ++ "/" ++ file, by simp [tableRoot, String.append_assoc]⟩

theorem Uses.namespace_eq (h : e.Uses root path) (h' : e'.Uses root path)
    (hslash : '/' ∉ e.namespace_.toList) (hslash' : '/' ∉ e'.namespace_.toList) :
    e.namespace_ = e'.namespace_ := by
  obtain ⟨rest, hpath⟩ := h.below
  obtain ⟨rest', hpath'⟩ := h'.below
  have hlists := congrArg String.toList (hpath.symm.trans hpath')
  simp only [String.toList_append, List.append_assoc, List.append_cancel_left_eq] at hlists
  exact String.toList_inj.mp (append_separator_inj hslash hslash' hlists).1

end LakehouseEngine

/-- Two tenants are told apart: they have namespaces of their own, each of which is
mapped back to its tenant, the catalog gives the engine of a namespace only to those
who are allowed its tenant, and their engines use no path in common. -/
structure Apart (tenant tenant' : String) : Prop where
  namespaces : namespaceForTenant tenant ≠ namespaceForTenant tenant'
  inverse : tenantForNamespace (namespaceForTenant tenant) = tenant
  inverse' : tenantForNamespace (namespaceForTenant tenant') = tenant'
  authorized : ∀ allowsTenant engines ns e,
    (∀ e ∈ engines, e = .reopen tenant ∨ e = .reopen tenant') →
      catalogEngine allowsTenant engines ns = .ok e →
        tenantForNamespace ns = e.tenant ∧ allowsTenant e.tenant = true
  paths : ∀ root path, (LakehouseEngine.reopen tenant).Uses root path →
    ¬(LakehouseEngine.reopen tenant').Uses root path

theorem catalogEngine_eq_ok {engines : List LakehouseEngine} {ns : String} {e : LakehouseEngine} :
    catalogEngine allowsTenant engines ns = .ok e ↔
      allowsTenant (tenantForNamespace ns) = true ∧ engineForNamespace engines ns = some e := by
  unfold catalogEngine authorizeTenant
  by_cases hallows : allowsTenant (tenantForNamespace ns) = true
  · rw [if_pos hallows]
    cases hengine : engineForNamespace engines ns with
    | none => simp [hallows, bind, Except.bind]
    | some e' => simp [hallows, bind, Except.bind, pure, Except.pure]
  · rw [if_neg hallows]
    simp [hallows, bind, Except.bind]

/-- Accepted tenants are told apart exactly when none is named `default`. -/
theorem apart_iff (h : Accepted tenant) (h' : Accepted tenant') (hne : tenant ≠ tenant') :
    Apart tenant tenant' ↔ tenant ≠ "default" ∧ tenant' ≠ "default" := by
  constructor
  · intro hapart
    exact ⟨tenantForNamespace_namespaceForTenant.mp hapart.inverse,
      tenantForNamespace_namespaceForTenant.mp hapart.inverse'⟩
  · rintro ⟨hname, hname'⟩
    have hnamespaces : namespaceForTenant tenant ≠ namespaceForTenant tenant' := fun heq =>
      hne (namespaceForTenant_inj hname hname' heq)
    have hinverse := tenantForNamespace_namespaceForTenant.mpr hname
    have hinverse' := tenantForNamespace_namespaceForTenant.mpr hname'
    refine ⟨hnamespaces, hinverse, hinverse', ?_, ?_⟩
    · intro allows engines ns e hengines hcatalog
      obtain ⟨hallows, hfind⟩ := catalogEngine_eq_ok.mp hcatalog
      have hns : e.namespace_ = ns := by simpa using List.find?_some hfind
      have htenant : tenantForNamespace ns = e.tenant := by
        rw [← hns]
        rcases hengines e (List.mem_of_find?_eq_some hfind) with rfl | rfl
        · exact hinverse
        · exact hinverse'
      exact ⟨htenant, htenant ▸ hallows⟩
    · intro root path huses huses'
      exact hnamespaces (huses.namespace_eq huses' h.namespace_no_slash h'.namespace_no_slash)

theorem accepted_acme : Accepted "acme" :=
  ⟨fun _ => true, some "acme", by decide⟩

theorem accepted_reserved : Accepted "_" := ⟨fun _ => true, none, by decide⟩

/-- Two tenants with names of their own. -/
theorem apart_acme_reserved : Apart "acme" "_" :=
  (apart_iff accepted_acme accepted_reserved (by decide)).mpr (by decide)

/-- A tenant may be named as the namespace of the reserved one. -/
theorem default_not_apart : ¬∀ tenant tenant', Accepted tenant → Accepted tenant' →
    tenant ≠ tenant' → Apart tenant tenant' := by
  intro hall
  have hdefault : Accepted "default" := ⟨fun _ => true, some "default", by decide +kernel⟩
  exact (hall "default" "_" hdefault accepted_reserved (by decide)).namespaces (by decide)

end BlueDB.Lakehouse
