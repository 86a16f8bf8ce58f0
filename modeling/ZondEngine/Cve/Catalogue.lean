import ZondEngine.Cve.DatasetFile
import ZondEngine.Record.Wire
import ZondEngine.Version.Dotted

/-!
# The catalogue of known vulnerabilities

`Catalogue` of `cve.rs`: entries as indices into a pool of texts, the platform identifiers they are matched against, and
the overlay of `cve/applicability.rs`. A catalogue reads out what its document states (`views_ofDocument`).
-/

namespace Zond.Cve

open Zond.Pool Zond.VersionOrder

/-! ## Platform identifiers -/

structure Cpe where
  (vendor product version : Text)
  deriving DecidableEq

def formattedFieldsFrom (field : Text) : Text → List Text
  | [] => [field]
  | ['\\'] => [field]
  | '\\' :: c :: rest => formattedFieldsFrom (field ++ [c]) rest
  | ':' :: rest => field :: formattedFieldsFrom [] rest
  | c :: rest => formattedFieldsFrom (field ++ [c]) rest

def formattedFields (body : Text) : List Text := formattedFieldsFrom [] body

def cpeFields (cpe : Text) : Option (List Text) :=
  match cpe.dropPrefix? "cpe:2.3:" with
  | some body => some (formattedFields body)
  | none => (cpe.dropPrefix? "cpe:/").map (·.splitOn ':')

/-- Vendor, product and version of a CPE name. -/
def Cpe.parse (cpe : Text) : Option Cpe :=
  match cpeFields cpe with
  | some (_part :: vendor :: product :: rest) =>
    let version := rest.head?.getD []
    let update := rest[1]?.filter fun value => value ≠ [] ∧ value ≠ ['*'] ∧ value ≠ ['-']
    some ⟨vendor.map Char.toLower, product.map Char.toLower, version ++ update.getD []⟩
  | _ => none

/-! ## Ranges of versions -/

def operators : List (Text × (Ordering → Bool)) :=
  [("<=", (· != .gt)), (">=", (· != .lt)), ("==", (· == .eq)), ("<", (· == .lt)),
    (">", (· == .gt)), ("=", (· == .eq))]

/-- Whether a version meets one bound. -/
def clauseHolds (version clause : Text) : Bool :=
  match operators.findSome? fun op => (clause.dropPrefix? op.1).map fun bound => (op.2, Text.trim bound) with
  | some (test, bound) => test (versionCmp version bound)
  | none => versionCmp version clause == .eq

def versionMatches (version stated : Text) : Bool :=
  if stated.trim = ['*'] then true
  else if version = [] ∨ version = ['-'] ∨ version = ['*'] then false
  else (stated.trim.splitOn ',').all fun clause => clauseHolds version (Text.trim clause)

/-! ## Vulnerabilities -/

inductive Applies where
  | service | client
  | «local»
  | configuration (requires : Text)
  deriving DecidableEq

abbrev Overlay := SortedMap Text (List (Text × Applies))

def applicability (overlay : Overlay) (cve vendorProduct : Text) : Option Applies :=
  (overlay.get? cve).bind fun stated => (stated.find? fun entry => entry.1 == vendorProduct).map Prod.snd

/-- One known vulnerability, as a document states it and as a catalogue reads it out again. -/
structure Vulnerability where
  (cve title severity vendor product affected : Text)
  cwe : Option UInt32
  remediation : Option Text
  deriving DecidableEq

namespace Vulnerability

def «matches» (v : Vulnerability) (cpe : Cpe) : Bool :=
  Text.eqIgnoreAsciiCase v.vendor cpe.vendor && Text.eqIgnoreAsciiCase v.product cpe.product &&
    versionMatches cpe.version v.affected

def constrainsTheVersion (v : Vulnerability) : Bool := v.affected.trim != ['*']

def applies (overlay : Overlay) (v : Vulnerability) : Option Applies :=
  applicability overlay v.cve (v.vendor ++ ':' :: v.product)

def requires (overlay : Overlay) (v : Vulnerability) : Option Text :=
  match v.applies overlay with
  | some (.configuration requires) => some requires
  | _ => none

end Vulnerability

/-! ## Entries -/

structure Entry where
  (cve title severity vendor product affected : UInt32)
  (cwe remediation : Option UInt32)

namespace Entry

def indices (e : Entry) : List UInt32 :=
  e.cve :: e.title :: e.severity :: e.vendor :: e.product :: e.affected :: e.remediation.toList

def text (pool : List Text) (index : UInt32) : Text := pool.getD index.toNat []

def view (pool : List Text) (e : Entry) : Vulnerability :=
  { cve := Entry.text pool e.cve
    title := Entry.text pool e.title
    severity := Entry.text pool e.severity
    vendor := Entry.text pool e.vendor
    product := Entry.text pool e.product
    affected := Entry.text pool e.affected
    cwe := e.cwe
    remediation := e.remediation.map (Entry.text pool) }

def of (v : Vulnerability) : Pool.Writer Text Entry := do
  let cve ← intern v.cve
  let title ← intern v.title
  let severity ← intern v.severity
  let vendor ← intern v.vendor
  let product ← intern v.product
  let affected ← intern v.affected
  let remediation ← internOption v.remediation
  return ⟨cve, title, severity, vendor, product, affected, v.cwe, remediation⟩

theorem grows_text (value : Text) :
    Grows (intern value) fun whole index => index.toNat < whole.length ∧ Entry.text whole index = value := by
  refine (grows_intern value).imp fun whole index h => ⟨(List.getElem?_eq_some_iff.mp h).1, ?_⟩
  rw [Entry.text, List.getD_eq_getElem?_getD, h]
  rfl

theorem grows_remediation (value : Option Text) :
    Grows (internOption value) fun whole index =>
      InPool whole index.toList ∧ index.map (Entry.text whole) = value := by
  cases value with
  | none =>
    refine (Grows.pure none).imp ?_
    rintro whole _ rfl
    exact ⟨inPool_nil, rfl⟩
  | some text =>
    refine (Entry.grows_text text).map.imp ?_
    rintro whole _ ⟨index, ⟨hlt, hat⟩, rfl⟩
    exact ⟨inPool_cons.mpr ⟨hlt, inPool_nil⟩, congrArg some hat⟩

theorem grows_of (v : Vulnerability) : Grows (Entry.of v) fun whole e => InPool whole e.indices ∧ e.view whole = v := by
  refine ((Entry.grows_text v.cve).bind fun _ => (Entry.grows_text v.title).bind fun _ =>
    (Entry.grows_text v.severity).bind fun _ => (Entry.grows_text v.vendor).bind fun _ =>
    (Entry.grows_text v.product).bind fun _ => (Entry.grows_text v.affected).bind fun _ =>
    (grows_remediation v.remediation).bind fun _ => Grows.pure _).imp ?_
  rintro whole _ ⟨cve, ⟨hcve, hcve'⟩, title, ⟨htitle, htitle'⟩, severity, ⟨hseverity, hseverity'⟩, vendor,
    ⟨hvendor, hvendor'⟩, product, ⟨hproduct, hproduct'⟩, affected, ⟨haffected, haffected'⟩, remediation,
    ⟨hremediation, hremediation'⟩, rfl⟩
  constructor
  · simp only [indices, inPool_cons]
    exact ⟨hcve, htitle, hseverity, hvendor, hproduct, haffected, hremediation⟩
  · simp only [view, hcve', htitle', hseverity', hvendor', hproduct', haffected', hremediation']

end Entry

/-! ## Catalogues -/

/-- The known vulnerabilities, their texts pooled. -/
structure Catalogue where
  id : Text
  version : Version
  contentHash : Text
  pool : List Text
  vulnerability : List Entry
  inPool : ∀ e ∈ vulnerability, InPool pool e.indices

def internAll (entries : List Vulnerability) : List Entry × List Text := (entries.mapM Entry.of).run []

namespace Catalogue

def views (c : Catalogue) : List Vulnerability := c.vulnerability.map (Entry.view c.pool)

theorem internAll_read {entries : List Vulnerability} (h : (internAll entries).2.length ≤ 2 ^ 32) :
    (∀ e ∈ (internAll entries).1, InPool (internAll entries).2 e.indices) ∧
      (internAll entries).1.map (Entry.view (internAll entries).2) = entries := by
  have hread := (Grows.mapM (l := entries) (fun v _ => Entry.grows_of v) []).2 (internAll entries).2
    (List.prefix_refl _) h
  obtain ⟨hin, hviews⟩ := (List.forall₂_and_left _ _).mp hread.flip
  exact ⟨hin, List.forall₂_eq_eq_eq ▸ List.forall₂_map_left_iff.mpr hviews⟩

/-- A catalogue of a document's entries, their texts pooled. -/
def ofDocument (id : Text) (version : Version) (contentHash : Text) (entries : List Vulnerability)
    (h : (internAll entries).2.length ≤ 2 ^ 32) : Catalogue where
  id
  version
  contentHash
  pool := (internAll entries).2
  vulnerability := (internAll entries).1
  inPool := (internAll_read h).1

/-- **A catalogue reads out what its document states.** -/
theorem views_ofDocument (id : Text) (version : Version) (contentHash : Text) {entries : List Vulnerability}
    (h : (internAll entries).2.length ≤ 2 ^ 32) : (ofDocument id version contentHash entries h).views = entries :=
  (internAll_read h).2

end Catalogue

end Zond.Cve
