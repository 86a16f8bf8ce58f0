import ZondEngine.Lib.Reports
import ZondEngine.Model.Finding

/-!
# What corroboration comes to

Corroboration is a run of moves over the parts of a finding, and it comes to one finding, part by part (`folded`); its
flag says exactly whether that is another one (`corroborate_eq`).
-/

namespace Zond

open List SortedMap

namespace Finding

section Moves

variable {β : Type}

theorem Move.reports (A : Lens Finding β) {move : Move} {change : β → β}
    (hguard : ∀ f, move.guard f = true ↔ change (A.get f) ≠ A.get f)
    (hupdate : ∀ f, move.guard f = true → move.update f = A.modify change f) :
    Reports (fun s => Move.make s move) (A.modify change) := by
  intro s
  dsimp only
  unfold Move.make
  cases hmade : move.guard s.1 with
  | true =>
    have hmoved : A.modify change s.1 ≠ s.1 := fun heq => (hguard s.1).mp hmade (Lens.modify_eq_self_iff.mp heq)
    rw [if_pos rfl, hupdate s.1 hmade, decide_eq_true hmoved, Bool.or_true]
  | false =>
    have hsame : A.modify change s.1 = s.1 := by
      refine Lens.modify_eq_self_iff.mpr (by_contra fun hmoved => ?_)
      exact Bool.false_ne_true (hmade.symm.trans ((hguard s.1).mpr hmoved))
    rw [if_neg Bool.false_ne_true, hsame, decide_eq_false (not_not_intro rfl), Bool.or_false]

theorem Move.reports_set [BEq β] [LawfulBEq β] (A : Lens Finding β) (value : β) :
    Reports (fun s => Move.make s ⟨fun f => value != A.get f, A.set value⟩) (A.modify fun _ => value) :=
  Move.reports A (fun _ => bne_iff_ne) fun _ _ => rfl

theorem Move.reports_fill (A : Lens Finding (Option β)) (value : Option β) :
    Reports (fun s => Move.make s ⟨fun f => (A.get f).isNone && value.isSome, A.set value⟩)
      (A.modify fun held => held.or value) := by
  refine Move.reports A (fun f => ?_) fun f hmissing => ?_
  · show ((A.get f).isNone && value.isSome) = true ↔ (A.get f).or value ≠ A.get f
    cases A.get f <;> cases value <;> simp
  · have hnone := Option.isNone_iff_eq_none.mp (Bool.and_eq_true_iff.mp hmissing).1
    show A.set value f = A.set ((A.get f).or value) f
    rw [hnone, Option.none_or]

theorem Move.reports_prefer [BEq β] [LawfulBEq β] (A : Lens Finding (Option β)) (value : Option β) :
    Reports (fun s => Move.make s ⟨fun f => value.isSome && value != A.get f, A.set value⟩)
      (A.modify fun held => value.or held) := by
  refine Move.reports A (fun f => ?_) fun f hgiven => ?_
  · cases value <;> simp
  · obtain ⟨given, rfl⟩ := Option.isSome_iff_exists.mp (Bool.and_eq_true_iff.mp hgiven).1
    rfl

end Moves

/-! ## The parts of a finding -/

namespace Part

def detection : Lens Finding DetectionId := .mk Finding.detection fun detection f => { f with detection }

def title : Lens Finding {title : Text // title.trim ≠ []} :=
  .mk (fun f => ⟨f.title, f.title_ne⟩) fun title f => { f with title := title.1, title_ne := title.2 }

def severity : Lens Finding Severity := .mk Finding.severity fun severity f => { f with severity }

def confidence : Lens Finding Confidence := .mk Finding.confidence fun confidence f => { f with confidence }

def class_ : Lens Finding DetectionClass := .mk Finding.class_ fun class_ f => { f with class_ }

def excerpt : Lens Finding Excerpt := .mk Finding.excerpt fun excerpt f => { f with excerpt }

def references : Lens Finding (List Reference) := .mk Finding.references fun references f => { f with references }

def remediation : Lens Finding (Option Text) := .mk Finding.remediation fun remediation f => { f with remediation }

def cpes : Lens Finding (SortedSet Text) := .mk Finding.cpes fun cpes f => { f with cpes }

def subject : Lens Finding (Option Text) := .mk Finding.subject fun subject f => { f with subject }

def build : Lens Finding (Option Build) := .mk Finding.build fun build f => { f with build }

def group : Lens Finding (Option FindingGroup) := .mk Finding.group fun group f => { f with group }

def advisedBy : Lens Finding (Option DetectionId) := .mk Finding.advisedBy fun advisedBy f => { f with advisedBy }

def exploitation : Lens Finding (Option Exploitation) :=
  .mk Finding.exploitation fun exploitation f => { f with exploitation }

end Part

/-! ## What the moves come to -/

@[ext]
structure Grounds where
  confidence : Confidence
  references : List Reference
  build : Option Build
  advisedBy : Option DetectionId
  exploitation : Option Exploitation
  deriving DecidableEq

def grounds (f : Finding) : Grounds := ⟨f.confidence, f.references, f.build, f.advisedBy, f.exploitation⟩

def cite (references : List Reference) (reference : Reference) : List Reference :=
  if reference ∈ references then references else references ++ [reference]

def Grounds.union (held other : Grounds) : Grounds where
  confidence := surer held.confidence other.confidence
  references := other.references.foldl cite held.references
  build := held.build.or other.build
  advisedBy := held.advisedBy.or other.advisedBy
  exploitation := held.exploitation.or other.exploitation

def Part.grounds : Lens Finding Grounds where
  get := Finding.grounds
  set g f := { f with
    confidence := g.confidence, references := g.references, build := g.build, advisedBy := g.advisedBy
    exploitation := g.exploitation }
  get_set _ _ := rfl
  set_get _ := rfl
  set_set _ _ _ := rfl

section Effect

variable (f other : Finding)

def weighed : List Move :=
  if f.isCorrelation && other.isCorrelation then
    if f.detection.version ≤ other.detection.version then correlated other else []
  else observed other

def settled : List Move :=
  (if f.detection.version ≤ other.detection.version then verdict other else superseded other) ++
    other.cpes.keys.map fun cpe => ⟨fun f => !f.cpes.contains cpe, fun f => { f with cpes := f.cpes.add cpe }⟩

theorem moves_eq : moves f other =
    weighed f other ++
      ⟨fun f => f.subject.isNone && other.subject.isSome, fun f => { f with subject := other.subject }⟩ ::
        settled f other := by
  unfold moves weighed settled
  rw [append_assoc, cons_append]

def weigh (held : Grounds) : Grounds :=
  if f.isCorrelation && other.isCorrelation then
    if f.detection.version ≤ other.detection.version then other.grounds else held
  else held.union other.grounds

def quoting (excerpt otherwise : Excerpt) : Excerpt := if excerpt.isEmpty then otherwise else excerpt

def folded : Finding :=
  let new := f.detection.version ≤ other.detection.version
  let g := weigh f other f.grounds
  { detection := if f.detection.version < other.detection.version then other.detection else f.detection
    title := if new then other.title else f.title
    severity := if new then other.severity else f.severity
    confidence := g.confidence
    class_ := if new then other.class_ else f.class_
    excerpt := if new then quoting other.excerpt f.excerpt else quoting f.excerpt other.excerpt
    references := g.references
    remediation := if new then other.remediation.or f.remediation else f.remediation.or other.remediation
    cpes := other.cpes.keys.foldl SortedSet.add f.cpes
    subject := f.subject.or other.subject
    build := g.build
    group := if new then other.group.or f.group else f.group
    advisedBy := g.advisedBy
    exploitation := g.exploitation
    title_ne := by
      split
      · exact other.title_ne
      · exact f.title_ne }

theorem reports_correlated : Reports (fun s => (correlated other).foldl Move.make s)
    (Part.grounds.modify fun _ => other.grounds) :=
  (Move.reports_set Part.confidence other.confidence).part
    ((Move.reports_set Part.references other.references).part
      ((Move.reports_set Part.build other.build).part
        ((Move.reports_set Part.advisedBy other.advisedBy).part
          (Move.reports_set Part.exploitation other.exploitation) fun _ => rfl) fun _ => rfl) fun _ => rfl) fun _ => rfl

theorem length_cite {references : List Reference} {reference : Reference} (h : cite references reference ≠ references) :
    references.length < (cite references reference).length := by
  unfold cite at h ⊢
  split at h
  · exact absurd rfl h
  next hnew =>
    rw [if_neg hnew, length_append]
    exact Nat.lt_succ_self _

theorem reports_cited (references : List Reference) :
    Reports (fun s => references.foldl (fun s reference => Move.make s
      ⟨fun f => decide (reference ∉ f.references), fun f => { f with references := f.references ++ [reference] }⟩) s)
      (Part.references.modify fun held => references.foldl cite held) := by
  refine Reports.foldl List.length (fun reference => Move.reports Part.references (fun g => ?_) fun g hnew => ?_)
    (fun reference held => length_cite) references
  · rw [decide_eq_true_iff]
    unfold cite
    split
    next hheld => exact ⟨fun hnew => absurd hheld hnew, fun hmoved => absurd rfl hmoved⟩
    next hnew => exact ⟨fun _ hsame => by simpa using congrArg List.length hsame, fun _ => hnew⟩
  · have hnew : reference ∉ g.references := of_decide_eq_true hnew
    show _ = Part.references.set (cite g.references reference) g
    unfold cite
    rw [if_neg hnew]
    rfl

theorem surer_surer (a b : Confidence) : surer (surer a b) b = surer a b := by
  unfold surer
  split
  · rw [if_neg (lt_irrefl _)]
  · rfl

theorem reports_observed : Reports (fun s => (observed other).foldl Move.make s)
    (Part.grounds.modify fun held => held.union other.grounds) := by
  have hconfidence : Reports (fun s => Move.make s ⟨fun f => surer f.confidence other.confidence != f.confidence,
      fun f => { f with confidence := surer f.confidence other.confidence }⟩)
      (Part.confidence.modify fun held => surer held other.confidence) :=
    Move.reports Part.confidence (fun _ => bne_iff_ne) fun _ _ => rfl
  have hall := hconfidence.part ((reports_cited other.references).part
    ((Move.reports_fill Part.build other.build).part
      ((Move.reports_fill Part.advisedBy other.advisedBy).part
        (Move.reports_fill Part.exploitation other.exploitation) fun _ => rfl) fun _ => rfl) fun _ => rfl) fun _ => rfl
  intro s
  unfold observed
  dsimp only
  rw [cons_append, foldl_cons, foldl_append, foldl_map]
  exact hall s

theorem reports_weighed :
    Reports (fun s => (weighed f other).foldl Move.make s) (Part.grounds.modify (weigh f other)) := by
  unfold weighed weigh
  by_cases hcorrelation : (f.isCorrelation && other.isCorrelation) = true
  · by_cases hnew : f.detection.version ≤ other.detection.version
    · simp only [if_pos hcorrelation, if_pos hnew]
      exact reports_correlated other
    · simp only [if_pos hcorrelation, if_neg hnew]
      exact Reports.nothing
  · simp only [if_neg hcorrelation]
    exact reports_observed other

theorem reports_identified (cpes : List Text) :
    Reports (fun s => (cpes.map fun cpe =>
      (⟨fun f => !f.cpes.contains cpe, fun f => { f with cpes := f.cpes.add cpe }⟩ :
      Move)).foldl Move.make s) (Part.cpes.modify fun held => cpes.foldl SortedSet.add held) := by
  have hgrows : ∀ (cpe : Text) (held : SortedSet Text), held.contains cpe = false → held.len < (held.add cpe).len := by
    intro cpe held hnew
    have hnone : ¬(SortedMap.get? held cpe).isSome = true := fun hsome => Bool.false_ne_true (hnew.symm.trans hsome)
    unfold SortedSet.add
    rw [len_insert, if_neg hnone]
    exact Nat.lt_succ_self _
  have hnews : ∀ (cpe : Text) (held : SortedSet Text), held.contains cpe = false ↔ held.add cpe ≠ held := by
    intro cpe held
    constructor
    · intro hnew hsame
      exact absurd (congrArg SortedMap.len hsame) (hgrows cpe held hnew).ne'
    · intro hmoved
      by_contra hheld
      exact hmoved (SortedSet.add_of_contains (Bool.not_eq_false _ ▸ hheld))
  have hall : Reports (fun s => cpes.foldl (fun s cpe => Move.make s
      ⟨fun f => !f.cpes.contains cpe, fun f => { f with cpes := f.cpes.add cpe }⟩) s)
      (Part.cpes.modify fun held => cpes.foldl SortedSet.add held) := by
    refine Reports.foldl SortedMap.len (fun cpe => Move.reports Part.cpes (fun g => ?_) fun _ _ => rfl)
      (fun cpe held hmoved => hgrows cpe held ((hnews cpe held).mpr hmoved)) cpes
    rw [Bool.not_eq_true']
    exact hnews cpe g.cpes
  intro s
  dsimp only
  rw [foldl_map]
  exact hall s

theorem reports_quoted : Reports (fun s => Move.make s
    ⟨fun f => !other.excerpt.isEmpty && other.excerpt != f.excerpt, fun f => { f with excerpt := other.excerpt }⟩)
    (Part.excerpt.modify (quoting other.excerpt)) := by
  refine Move.reports Part.excerpt (fun g => ?_) fun g hgiven => ?_
  · show (!other.excerpt.isEmpty && other.excerpt != g.excerpt) = true ↔ quoting other.excerpt g.excerpt ≠ g.excerpt
    unfold quoting
    cases other.excerpt.isEmpty <;> simp
  · have hfull : other.excerpt.isEmpty = false := (Bool.not_eq_true' _).mp (Bool.and_eq_true_iff.mp hgiven).1
    unfold quoting
    rw [hfull]
    rfl

theorem reports_justified : Reports (fun s => Move.make s
    ⟨fun f => f.excerpt.isEmpty && !other.excerpt.isEmpty, fun f => { f with excerpt := other.excerpt }⟩)
    (Part.excerpt.modify fun held => quoting held other.excerpt) := by
  refine Move.reports Part.excerpt (fun g => ?_) fun g hmissing => ?_
  · show (g.excerpt.isEmpty && !other.excerpt.isEmpty) = true ↔ quoting g.excerpt other.excerpt ≠ g.excerpt
    unfold quoting
    cases hheld : g.excerpt.isEmpty with
    | false => simp
    | true =>
      rw [if_pos rfl, Bool.true_and, Bool.not_eq_true']
      constructor
      · rintro hgiven heq
        rw [heq, hheld] at hgiven
        exact Bool.false_ne_true hgiven.symm
      · intro hmoved
        by_contra hempty
        exact hmoved (Excerpt.eq_of_isEmpty (Bool.not_eq_false _ ▸ hempty) hheld)
  · have hempty : g.excerpt.isEmpty = true := (Bool.and_eq_true_iff.mp hmissing).1
    show _ = Part.excerpt.set (quoting g.excerpt other.excerpt) g
    unfold quoting
    rw [hempty]
    rfl

theorem reports_titled : Reports (fun s => Move.make s ⟨fun f => other.title != f.title,
    fun f => { f with title := other.title, title_ne := other.title_ne }⟩)
    (Part.title.modify fun _ => ⟨other.title, other.title_ne⟩) := by
  refine Move.reports Part.title (fun g => ?_) fun _ _ => rfl
  show (other.title != g.title) = true ↔
    (⟨other.title, other.title_ne⟩ : {title : Text // title.trim ≠ []}) ≠ ⟨g.title, g.title_ne⟩
  rw [bne_iff_ne, Ne, Ne, Subtype.mk.injEq]

theorem reports_stamped : Reports (fun s => Move.make s
    ⟨fun f => f.detection.version < other.detection.version, fun f => { f with detection := other.detection }⟩)
    (Part.detection.modify fun held => if held.version < other.detection.version then other.detection else held) := by
  refine Move.reports Part.detection (fun g => ?_) fun g hnewer => ?_
  · rw [decide_eq_true_iff]
    split
    next hnewer => exact ⟨fun _ heq => lt_irrefl _ (heq ▸ hnewer), fun _ => hnewer⟩
    next hnot => exact ⟨fun hnewer => absurd hnewer hnot, fun hmoved => absurd rfl hmoved⟩
  · have hnewer : g.detection.version < other.detection.version := of_decide_eq_true hnewer
    show _ = Part.detection.set (if g.detection.version < other.detection.version then _ else _) g
    rw [if_pos hnewer]
    rfl

/-- **Corroborating comes to one finding, and the flag says whether that is another one.** -/
theorem corroborate_eq : f.corroborate other = (folded f other, decide (folded f other ≠ f)) := by
  have hsubject := Move.reports_fill Part.subject other.subject
  have hcpes := reports_identified other.cpes.keys
  have hremediation := Move.reports_prefer Part.remediation other.remediation
  have hadvice := Move.reports_fill Part.remediation other.remediation
  have hgroup := Move.reports_prefer Part.group other.group
  unfold corroborate
  rw [moves_eq]
  unfold settled
  by_cases hnew : f.detection.version ≤ other.detection.version
  · have hall := (reports_weighed f other).part (hsubject.part (hgroup.part ((reports_stamped other).part
      ((Move.reports_set Part.severity other.severity).part ((reports_titled other).part
        ((Move.reports_set Part.class_ other.class_).part ((reports_quoted other).part
          (hremediation.part hcpes fun _ => rfl) fun _ => rfl) fun _ => rfl) fun _ => rfl) fun _ => rfl)
            fun _ => rfl) fun _ => rfl) fun _ => rfl) fun _ => rfl
    rw [if_pos hnew, foldl_append, foldl_cons, foldl_append]
    refine hall.fresh ?_
    unfold folded
    simp only [if_pos hnew]
    rfl
  · have hall := (reports_weighed f other).part (hsubject.part ((reports_justified other).part
      (hadvice.part hcpes fun _ => rfl) fun _ => rfl) fun _ => rfl) fun _ => rfl
    rw [if_neg hnew, foldl_append, foldl_cons, foldl_append]
    refine hall.fresh ?_
    unfold folded
    simp only [if_neg hnew, if_neg fun hnewer => hnew (le_of_lt hnewer)]
    rfl

end Effect

section Claim

variable {f other : Finding}

theorem mem_foldl_cite {reference : Reference} : ∀ {added references : List Reference},
    reference ∈ added.foldl cite references ↔ reference ∈ references ∨ reference ∈ added
  | [], _ => ⟨.inl, fun h => h.resolve_right not_mem_nil⟩
  | first :: rest, references => by
    have hone : reference ∈ cite references first ↔ reference ∈ references ∨ reference = first := by
      unfold cite
      split
      next hheld => exact ⟨.inl, fun h => h.elim (fun hmem => hmem) fun heq => heq ▸ hheld⟩
      · rw [mem_append, mem_singleton]
    rw [foldl_cons, mem_foldl_cite, hone, mem_cons, or_assoc]

def lead (cves : List Text) (title : Text) : Text := cves.min?.getD title

theorem lead_union {cves cves' both : List Text} {title title' : Text} (hlead : lead cves title = lead cves' title')
    (hboth : ∀ id, id ∈ both ↔ id ∈ cves ∨ id ∈ cves') :
    lead both title = lead cves title ∧ lead both title' = lead cves title := by
  unfold lead at hlead ⊢
  cases hmin : cves.min? with
  | none =>
    obtain rfl := min?_eq_none_iff.mp hmin
    have hsame : both.min? = cves'.min? := by
      cases hmin' : cves'.min? with
      | none =>
        obtain rfl := min?_eq_none_iff.mp hmin'
        refine min?_eq_none_iff.mpr (eq_nil_iff_forall_not_mem.mpr fun id hid => ?_)
        simpa using (hboth id).mp hid
      | some least =>
        rw [min?_eq_some_iff] at hmin' ⊢
        exact ⟨(hboth least).mpr (.inr hmin'.1), fun id hid => hmin'.2 id (by simpa using (hboth id).mp hid)⟩
    rw [hsame]
    cases hmin' : cves'.min? with
    | none =>
      rw [hmin'] at hlead
      exact ⟨rfl, hlead.symm⟩
    | some least =>
      rw [hmin'] at hlead
      exact ⟨hlead.symm, hlead.symm⟩
  | some least =>
    rw [hmin] at hlead
    have hleast : both.min? = some least := by
      rw [min?_eq_some_iff] at hmin ⊢
      refine ⟨(hboth least).mpr (.inl hmin.1), fun id hid => ?_⟩
      rcases (hboth id).mp hid with hid | hid
      · exact hmin.2 id hid
      · cases hmin' : cves'.min? with
        | none => exact absurd hid (by rw [min?_eq_none_iff.mp hmin']; exact not_mem_nil)
        | some least' =>
          rw [hmin', Option.getD_some, Option.getD_some] at hlead
          exact hlead ▸ (min?_eq_some_iff.mp hmin').2 id hid
    rw [hleast]
    exact ⟨rfl, rfl⟩

theorem mem_cves {f : Finding} {id : Text} : id ∈ f.cves ↔ Reference.cve id ∈ f.references := by
  unfold cves
  rw [mem_filterMap]
  constructor
  · rintro ⟨reference, hmem, hid⟩
    cases reference with
    | cve held => exact Option.some.inj hid ▸ hmem
    | cwe number => exact absurd hid (Option.some_ne_none id).symm
    | url url => exact absurd hid (Option.some_ne_none id).symm
  · exact fun hmem => ⟨_, hmem, rfl⟩

theorem mem_references_corroborate {reference : Reference} (h : reference ∈ (f.corroborate other).1.references) :
    reference ∈ f.references ∨ reference ∈ other.references := by
  rw [corroborate_eq] at h
  change reference ∈ (weigh f other f.grounds).references at h
  unfold weigh at h
  split at h
  · split at h
    · exact .inr h
    · exact .inl h
  · exact mem_foldl_cite.mp h

theorem id_folded (hid : f.detection.id = other.detection.id) : (folded f other).detection.id = f.detection.id := by
  show (if f.detection.version < other.detection.version then other.detection else f.detection).id = _
  split
  · exact hid.symm
  · rfl

theorem lead_folded (hlead : lead f.cves f.title = lead other.cves other.title) :
    lead (folded f other).cves (folded f other).title = lead f.cves f.title := by
  have hcves : (folded f other).cves = ({ f with references := (weigh f other f.grounds).references } : Finding).cves :=
    rfl
  have htitle : (folded f other).title =
      if f.detection.version ≤ other.detection.version then other.title else f.title :=
    rfl
  rw [hcves, htitle]
  unfold weigh
  split
  · split
    · exact hlead.symm
    · rfl
  · -- The accounts are read together, and whatever either is led by leads both.
    have hboth : ∀ id, id ∈ ({ f with references := (f.grounds.union other.grounds).references } : Finding).cves ↔
        id ∈ f.cves ∨ id ∈ other.cves := fun id => by
      rw [mem_cves, mem_cves, mem_cves]
      exact mem_foldl_cite
    have hunion := lead_union hlead hboth
    split
    · exact hunion.2
    · exact hunion.1

/-- **A corroborated finding makes the claim it made.** -/
theorem claimId_corroborate (hclaim : f.claimId = other.claimId) : (f.corroborate other).1.claimId = f.claimId := by
  obtain ⟨hid, hsubject⟩ := ClaimId.mk.inj hclaim
  rw [corroborate_eq]
  show ClaimId.mk (folded f other).detection.id
    ((f.subject.or other.subject).getD (lead (folded f other).cves (folded f other).title)) = f.claimId
  rw [id_folded hid]
  refine congrArg (ClaimId.mk f.detection.id) ?_
  cases hown : f.subject with
  | some subject => rfl
  | none =>
    rw [hown] at hsubject
    cases htheirs : other.subject with
    | some subject =>
      rw [htheirs] at hsubject
      exact hsubject.symm
    | none =>
      rw [htheirs] at hsubject
      exact lead_folded hsubject

end Claim

section Again

variable {a b : Finding}

theorem foldl_cite_of_subset {added references : List Reference} (h : ∀ reference ∈ added, reference ∈ references) :
    added.foldl cite references = references :=
  List.foldlRecOn (motive := (· = references)) added cite rfl fun held hheld reference hmem => by
    rw [hheld]
    exact if_pos (h reference hmem)

theorem exists_foldl_cite (added references : List Reference) :
    ∃ more, added.foldl cite references = references ++ more ∧
    more.Nodup ∧ ∀ reference ∈ more, reference ∉ references := by
  refine List.foldlRecOn (motive := fun held => ∃ more, held = references ++ more ∧ more.Nodup ∧
    ∀ reference ∈ more, reference ∉ references) added cite ⟨[], (append_nil _).symm, nodup_nil, nofun⟩ ?_
  rintro _ ⟨more, rfl, hnodup, hapart⟩ reference _
  unfold cite
  split
  · exact ⟨more, rfl, hnodup, hapart⟩
  next hnew =>
    rw [mem_append, not_or] at hnew
    refine ⟨more ++ [reference], append_assoc _ _ _, ?_, ?_⟩
    · exact hnodup.append (nodup_singleton _) (disjoint_singleton.mpr hnew.2)
    · intro other hother
      rcases mem_append.mp hother with hother | hother
      · exact hapart other hother
      · exact mem_singleton.mp hother ▸ hnew.1

theorem foldl_cite_more : ∀ {more references : List Reference}, more.Nodup →
    (∀ reference ∈ more, reference ∉ references) → more.foldl cite references = references ++ more
  | [], _, _, _ => (append_nil _).symm
  | first :: more, references, hnodup, hapart => by
    obtain ⟨hfirst, hrest⟩ := nodup_cons.mp hnodup
    have hstep : cite references first = references ++ [first] := if_neg (hapart first mem_cons_self)
    rw [foldl_cons, hstep, foldl_cite_more hrest, append_assoc, singleton_append]
    intro reference hmem hheld
    rcases mem_append.mp hheld with hheld | hheld
    · exact hapart reference (mem_cons_of_mem _ hmem) hheld
    · exact hfirst (mem_singleton.mp hheld ▸ hmem)

theorem foldl_cite_eq_iff {references theirs : List Reference} : theirs.foldl cite references = theirs ↔
    ∃ more, theirs = references ++ more ∧ more.Nodup ∧ ∀ reference ∈ more, reference ∉ references := by
  constructor
  · intro heq
    obtain ⟨more, hmore, hnodup, hapart⟩ := exists_foldl_cite theirs references
    exact ⟨more, heq.symm.trans hmore, hnodup, hapart⟩
  · rintro ⟨more, rfl, hnodup, hapart⟩
    rw [foldl_append, foldl_cite_of_subset fun _ hmem => hmem, foldl_cite_more hnodup hapart]

theorem Grounds.union_union (held other : Grounds) : (held.union other).union other = held.union other := by
  unfold union
  congr 1
  · exact surer_surer held.confidence other.confidence
  · exact foldl_cite_of_subset fun reference hmem => mem_foldl_cite.mpr (.inr hmem)
  · rw [Option.or_assoc, Option.or_self]
  · rw [Option.or_assoc, Option.or_self]
  · rw [Option.or_assoc, Option.or_self]

theorem surer_eq_right_iff {a b : Confidence} : surer a b = b ↔ a.ctorIdx ≤ b.ctorIdx := by
  cases a <;> cases b <;> decide

theorem or_eq_right_iff {β : Type} {held other : Option β} : held.or other = other ↔ held = none ∨ held = other := by
  cases held with
  | none => simp
  | some value => simp

/-- The second finding is held as surely, cites the first's references first, and names whatever it names. -/
structure Upheld (a b : Finding) : Prop where
  confidence_le : a.confidence.ctorIdx ≤ b.confidence.ctorIdx
  references_eq : ∃ more, b.references = a.references ++ more ∧ more.Nodup ∧
    ∀ reference ∈ more, reference ∉ a.references
  build_eq : a.build = none ∨ a.build = b.build
  advisedBy_eq : a.advisedBy = none ∨ a.advisedBy = b.advisedBy
  exploitation_eq : a.exploitation = none ∨ a.exploitation = b.exploitation

theorem union_eq_iff : a.grounds.union b.grounds = b.grounds ↔ Upheld a b := by
  rw [Grounds.ext_iff]
  constructor
  · rintro ⟨hconfidence, hreferences, hbuild, hadvised, hexploited⟩
    exact ⟨surer_eq_right_iff.mp hconfidence, foldl_cite_eq_iff.mp hreferences, or_eq_right_iff.mp hbuild,
      or_eq_right_iff.mp hadvised, or_eq_right_iff.mp hexploited⟩
  · rintro ⟨hconfidence, hreferences, hbuild, hadvised, hexploited⟩
    exact ⟨surer_eq_right_iff.mpr hconfidence, foldl_cite_eq_iff.mpr hreferences, or_eq_right_iff.mpr hbuild,
      or_eq_right_iff.mpr hadvised, or_eq_right_iff.mpr hexploited⟩

theorem isCorrelation_iff {f : Finding} : f.isCorrelation = true ↔ ∃ cpe, f.cpes.contains cpe = true := by
  unfold isCorrelation
  rw [bne_iff_ne, Ne, SortedSet.len_eq_zero_iff, not_forall]
  exact exists_congr fun cpe => Bool.not_eq_false _ ▸ Iff.rfl

theorem isCorrelation_folded : (folded a b).isCorrelation = (a.isCorrelation || b.isCorrelation) := by
  rw [Bool.eq_iff_iff, Bool.or_eq_true, isCorrelation_iff, isCorrelation_iff, isCorrelation_iff, ← exists_or]
  refine exists_congr fun cpe => ?_
  show (b.cpes.keys.foldl SortedSet.add a.cpes).contains cpe = true ↔ _
  rw [SortedSet.contains_foldl_add, ← SortedMap.contains_iff, or_comm]

theorem version_folded_le_iff :
    (folded a b).detection.version ≤ b.detection.version ↔ a.detection.version ≤ b.detection.version := by
  show (if a.detection.version < b.detection.version then b.detection else a.detection).version ≤ _ ↔ _
  split
  next hnewer => exact ⟨fun _ => hnewer.le, fun _ => le_rfl⟩
  · exact Iff.rfl

theorem version_le_folded : b.detection.version ≤ (folded a b).detection.version := by
  show _ ≤ (if a.detection.version < b.detection.version then b.detection else a.detection).version
  split
  · exact le_rfl
  next hold => exact not_lt.mp hold

theorem newer_folded {β : Type} (prefer : β → β → β) (hleft : ∀ x y, prefer x (prefer x y) = prefer x y)
    (hright : ∀ x y, prefer (prefer x y) y = prefer x y) (theirs ours : β) :
    (if (folded a b).detection.version ≤ b.detection.version then
        prefer theirs (if a.detection.version ≤ b.detection.version then prefer theirs ours else prefer ours theirs)
      else
        prefer (if a.detection.version ≤ b.detection.version then prefer theirs ours else prefer ours theirs) theirs) =
      if a.detection.version ≤ b.detection.version then prefer theirs ours else prefer ours theirs := by
  rw [if_congr version_folded_le_iff rfl rfl]
  split
  · exact hleft theirs ours
  · exact hright ours theirs

theorem quoting_left (x y : Excerpt) : quoting x (quoting x y) = quoting x y := by
  unfold quoting
  split <;> rfl

theorem quoting_right (x y : Excerpt) : quoting (quoting x y) y = quoting x y := by
  unfold quoting
  split
  · exact ite_self _
  · rfl

theorem or_left {β : Type} (x y : Option β) : x.or (x.or y) = x.or y := by rw [← Option.or_assoc, Option.or_self]

theorem or_right {β : Type} (x y : Option β) : (x.or y).or y = x.or y := by rw [Option.or_assoc, Option.or_self]

theorem folded_folded : folded (folded a b) b =
    Part.grounds.set (weigh (folded a b) b (weigh a b a.grounds)) (folded a b) := by
  have hverdict : ∀ {β : Type} (theirs ours : β), (if (folded a b).detection.version ≤ b.detection.version then theirs
      else if a.detection.version ≤ b.detection.version then theirs else ours) =
      if a.detection.version ≤ b.detection.version then theirs else ours :=
    fun theirs ours => newer_folded (fun x _ => x) (fun _ _ => rfl) (fun _ _ => rfl) theirs ours
  refine Finding.ext (if_neg (not_lt.mpr version_le_folded)) (hverdict b.title a.title) (hverdict b.severity a.severity)
    rfl (hverdict b.class_ a.class_) (newer_folded _ quoting_left quoting_right b.excerpt a.excerpt) rfl
    (newer_folded _ or_left or_right b.remediation a.remediation) ?_ (or_right a.subject b.subject) rfl ?_ rfl rfl
  · refine SortedSet.eq_of_contains fun cpe => Bool.eq_iff_iff.mpr ?_
    show (b.cpes.keys.foldl SortedSet.add (b.cpes.keys.foldl SortedSet.add a.cpes)).contains cpe = true ↔
      (b.cpes.keys.foldl SortedSet.add a.cpes).contains cpe = true
    rw [SortedSet.contains_foldl_add, SortedSet.contains_foldl_add, or_self_left]
  · show (if (folded a b).detection.version ≤ b.detection.version then
        b.group.or (if a.detection.version ≤ b.detection.version then b.group.or a.group else a.group)
      else if a.detection.version ≤ b.detection.version then b.group.or a.group else a.group) =
      if a.detection.version ≤ b.detection.version then b.group.or a.group else a.group
    rw [if_congr version_folded_le_iff rfl rfl]
    split
    · exact or_left b.group a.group
    · rfl

/-- **An account heard again is no news**, unless it is a correlation's, told to a finding that had
no identifiers. -/
theorem corroborate_again_iff (a b : Finding) : (a.corroborate b).1.corroborate b = ((a.corroborate b).1, false) ↔
    (a.isCorrelation = false → b.isCorrelation = true → a.detection.version ≤ b.detection.version → Upheld a b) := by
  have hgrounds : folded (folded a b) b = folded a b ↔
      weigh (folded a b) b (weigh a b a.grounds) = weigh a b a.grounds := by
    rw [folded_folded]
    exact Lens.modify_eq_self_iff (A := Part.grounds)
  rw [corroborate_eq, corroborate_eq, Prod.mk.injEq, decide_eq_false_iff_not, not_not, and_self, hgrounds,
    ← union_eq_iff]
  unfold weigh
  rw [isCorrelation_folded, if_congr version_folded_le_iff rfl rfl]
  -- The first fold goes by what both accounts are, the second by what the account is.
  cases b.isCorrelation with
  | false => simp [Grounds.union_union]
  | true =>
    cases a.isCorrelation with
    | true => by_cases hnew : a.detection.version ≤ b.detection.version <;> simp [hnew]
    | false => by_cases hnew : a.detection.version ≤ b.detection.version <;> simp [hnew, eq_comm]

def outdated (confidence : Confidence) (cpes : SortedSet Text) : Finding where
  detection := ⟨['c', 'v', 'e'], ⟨1, 0, 0⟩, [], by decide⟩
  title := ['o', 'l', 'd']
  severity := .high
  confidence
  class_ := .passive
  excerpt := .empty
  references := []
  remediation := none
  cpes
  subject := none
  build := none
  group := none
  advisedBy := none
  exploitation := none
  title_ne := by decide

def stripped : Finding := outdated .certain SortedMap.empty

def redrawn : Finding := outdated .weak (SortedSet.collect [['c', 'p', 'e']])

/-- A finding that lost its identifiers, told twice of the same weak correlation, is first certain still, then weak. -/
theorem corroborate_again_weaker : stripped.claimId = redrawn.claimId ∧
    (stripped.corroborate redrawn).1.confidence = .certain ∧
    ((stripped.corroborate redrawn).1.corroborate redrawn).1.confidence = .weak ∧
    ((stripped.corroborate redrawn).1.corroborate redrawn).2 = true ∧
    (stripped.corroborate redrawn).1.corroborate redrawn ≠ ((stripped.corroborate redrawn).1, false) := by
  decide

end Again

end Finding

/-! ## Findings by claim -/

structure Filed (findings : SortedMap ClaimId Finding) : Prop where
  claim_eq : ∀ claim finding, findings.get? claim = some finding → finding.claimId = claim
  len_le : findings.len ≤ MAX_FINDINGS_PER_SUBJECT

theorem Filed.empty : Filed SortedMap.empty where
  claim_eq claim finding h := by
    rw [get?_empty] at h
    exact absurd h (Option.some_ne_none finding).symm
  len_le := Nat.zero_le _

variable {findings : SortedMap ClaimId Finding}

theorem Filed.retain (h : Filed findings) (p : ClaimId → Finding → Bool) : Filed (findings.retain p) where
  claim_eq claim finding hget := h.claim_eq claim finding (get?_of_get?_retain hget)
  len_le := (len_retain_le _ _).trans h.len_le

theorem addFinding_cases (findings : SortedMap ClaimId Finding) (finding : Finding) :
    (∃ existing, findings.get? finding.claimId = some existing ∧
        (addFinding findings finding).1 = findings.insert finding.claimId (existing.corroborate finding).1) ∨
      findings.get? finding.claimId = none ∧ ((addFinding findings finding).1 = findings ∨
          findings.len < MAX_FINDINGS_PER_SUBJECT ∧
            (addFinding findings finding).1 = findings.insert finding.claimId finding) := by
  unfold addFinding
  dsimp only
  cases findings.get? finding.claimId with
  | some existing => exact .inl ⟨existing, rfl, rfl⟩
  | none =>
    refine .inr ⟨rfl, ?_⟩
    dsimp only
    split
    · exact .inl rfl
    next hroom => exact .inr ⟨not_le.mp hroom, rfl⟩

theorem forall_addFinding {P : ClaimId → Finding → Prop}
    (h : ∀ claim held, findings.get? claim = some held → P claim held)
    {finding : Finding} (hnew : P finding.claimId finding) (hagain : ∀ existing,
      findings.get? finding.claimId = some existing → P finding.claimId (existing.corroborate finding).1) :
    ∀ claim held, (addFinding findings finding).1.get? claim = some held → P claim held := by
  rcases addFinding_cases findings finding with ⟨existing, hget, heq⟩ | ⟨_, heq | ⟨_, heq⟩⟩
  · rw [heq]
    exact forall_get?_insert h (hagain existing hget)
  · rwa [heq]
  · rw [heq]
    exact forall_get?_insert h hnew

theorem Filed.addFinding (h : Filed findings) (finding : Finding) : Filed (Zond.addFinding findings finding).1 where
  claim_eq := forall_addFinding h.claim_eq rfl fun _ hget =>
    (Finding.claimId_corroborate (h.claim_eq _ _ hget)).trans (h.claim_eq _ _ hget)
  len_le := by
    rcases addFinding_cases findings finding with ⟨existing, hget, heq⟩ | ⟨hnone, heq | ⟨hroom, heq⟩⟩
    · rw [heq, len_insert, hget]
      exact h.len_le
    · rw [heq]
      exact h.len_le
    · rw [heq, len_insert, hnone]
      exact hroom

theorem foldl_addFinding_values (h : Filed findings) :
    findings.values.foldl (fun held finding => (addFinding held finding).1) SortedMap.empty = findings := by
  refine findings.foldl_values h.claim_eq fun held finding _ hnew hroom => ?_
  unfold addFinding
  dsimp only
  rw [hnew]
  rw [if_neg (not_le.mpr (hroom.trans_le h.len_le))]

end Zond
