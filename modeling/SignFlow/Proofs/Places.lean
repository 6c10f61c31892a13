import Mathlib.Data.List.Basic
import SignFlow.Report.DivisionCheck

/-! What a check says of each place.

It says at most one thing of a place, and the first site there decides what. So the possible findings can be
left out without touching the definite ones. But a definite zero that comes behind a possible one at its
place is not reported, whether possible ones are wanted or not. -/

namespace SignFlow.DivisionCheck

variable {code : Code} {seen : List Location} {site : Site} {sites : List Site}

theorem firstSites_seen (h : place code site ∈ seen) :
    firstSites code seen (site :: sites) = firstSites code seen sites := by
  simp [firstSites, h]

theorem firstSites_new (h : place code site ∉ seen) :
    firstSites code seen (site :: sites) = site :: firstSites code (place code site :: seen) sites := by
  simp [firstSites, h]

/-- A site is kept if its place is not known yet and no site before it is there. -/
theorem mem_firstSites : site ∈ firstSites code seen sites ↔
    place code site ∉ seen ∧ sites.find? (fun t => place code t == place code site) = some site := by
  induction sites generalizing seen with
  | nil => simp [firstSites]
  | cons first rest ih =>
    by_cases hplace : place code first = place code site
    · rw [List.find?_cons_of_pos (by simpa using hplace)]
      by_cases hseen : place code first ∈ seen
      · rw [firstSites_seen hseen, ih]
        simp [← hplace, hseen]
      · rw [firstSites_new hseen, List.mem_cons, ih]
        simp [← hplace, hseen, eq_comm]
    · have hne : site ≠ first := fun h => hplace (h ▸ rfl)
      rw [List.find?_cons_of_neg (by simpa using hplace)]
      by_cases hseen : place code first ∈ seen
      · rw [firstSites_seen hseen, ih]
      · rw [firstSites_new hseen, List.mem_cons, ih]
        simp [hne, Ne.symm hplace]

theorem exists_first (code : Code) (h : site ∈ sites) :
    ∃ first, sites.find? (fun t => place code t == place code site) = some first ∧
      place code first = place code site := by
  have hsome : (sites.find? fun t => place code t == place code site).isSome = true :=
    List.find?_isSome.mpr ⟨site, h, beq_self_eq_true (place code site)⟩
  obtain ⟨first, hfirst⟩ := Option.isSome_iff_exists.mp hsome
  exact ⟨first, hfirst, by simpa using List.find?_some hfirst⟩

theorem place_notMem_seen (h : site ∈ firstSites code seen sites) : place code site ∉ seen :=
  (mem_firstSites.mp h).1

/-- The sites that are kept stand in the order in which their places come up. -/
theorem firstSites_ordered (code : Code) (seen : List Location) (sites : List Site) :
    (firstSites code seen sites).Pairwise fun a b =>
      (sites.map (place code)).idxOf (place code a) < (sites.map (place code)).idxOf (place code b) := by
  induction sites generalizing seen with
  | nil => exact List.Pairwise.nil
  | cons first rest ih =>
    -- no site kept from the rest is at the place of the first one, so all are one further back
    have shift : ∀ {seen : List Location}, place code first ∈ seen → ∀ {site : Site},
        site ∈ firstSites code seen rest →
        ((first :: rest).map (place code)).idxOf (place code site) =
          (rest.map (place code)).idxOf (place code site) + 1 := by
      intro seen hfirst site hsite
      apply List.idxOf_cons_ne
      rintro heq
      exact place_notMem_seen hsite (heq ▸ hfirst)
    have tail : ∀ {seen : List Location}, place code first ∈ seen →
        (firstSites code seen rest).Pairwise fun a b =>
          ((first :: rest).map (place code)).idxOf (place code a) <
            ((first :: rest).map (place code)).idxOf (place code b) := by
      intro seen hfirst
      apply (ih seen).imp_of_mem
      intro a b ha hb hab
      rw [shift hfirst ha, shift hfirst hb]
      exact Nat.succ_lt_succ hab
    by_cases hseen : place code first ∈ seen
    · rw [firstSites_seen hseen]
      exact tail hseen
    · rw [firstSites_new hseen, List.pairwise_cons]
      refine ⟨fun site hsite => ?_, tail List.mem_cons_self⟩
      rw [shift List.mem_cons_self hsite, List.map_cons, List.idxOf_cons_self]
      exact Nat.succ_pos _

def diagnosticAt (code : Code) (site : Site) : Diagnostic := info.diagnostic (finding code site)

theorem id_diagnosticAt (code : Code) (site : Site) :
    (diagnosticAt code site).id = if isDefinite site then "divByZero" else "divByZeroPossible" := rfl

theorem severity_diagnosticAt (code : Code) (site : Site) :
    (diagnosticAt code site).severity = if isDefinite site then .error else .warning := rfl

theorem id_eq_definite {code : Code} {site : Site} :
    (diagnosticAt code site).id = "divByZero" ↔ isDefinite site = true := by
  rw [id_diagnosticAt]
  cases isDefinite site <;> decide

def added (c : DivisionCheck) (code : Code) : List Diagnostic :=
  (c.diagnose code).diagnostics.drop c.diagnostics.length

variable {c : DivisionCheck} {l : Location} {d : Diagnostic}

theorem added_eq (c : DivisionCheck) (code : Code) :
    c.added code = ((firstSites code [] c.sites).filter fun s => isDefinite s || c.reportPossible).map
      (diagnosticAt code) := by
  simp only [added, diagnose, List.drop_left, findings, List.map_map]
  rfl

theorem mem_added : d ∈ c.added code ↔ ∃ site,
    c.sites.find? (fun t => place code t == place code site) = some site ∧
      (isDefinite site = true ∨ c.reportPossible = true) ∧ diagnosticAt code site = d := by
  simp [added_eq, mem_firstSites, and_assoc]

theorem added_ordered (c : DivisionCheck) (code : Code) :
    (c.added code).Pairwise fun d e =>
      (c.sites.map (place code)).idxOf d.location < (c.sites.map (place code)).idxOf e.location := by
  rw [added_eq, List.pairwise_map]
  exact (firstSites_ordered code [] c.sites).filter _

theorem added_nodup (c : DivisionCheck) (code : Code) : ((c.added code).map Diagnostic.location).Nodup := by
  rw [List.Nodup, List.pairwise_map]
  apply (added_ordered c code).imp
  intro d e hlt heq
  rw [heq] at hlt
  exact Nat.lt_irrefl _ hlt

/-- Where possible findings are wanted, every place with a site is reported. -/
theorem mem_locations (h : c.reportPossible = true) :
    l ∈ (c.added code).map Diagnostic.location ↔ l ∈ c.sites.map (place code) := by
  constructor
  · intro hl
    obtain ⟨d, hd, rfl⟩ := List.mem_map.mp hl
    obtain ⟨site, hfind, -, rfl⟩ := mem_added.mp hd
    exact List.mem_map_of_mem (List.mem_of_find?_eq_some hfind)
  · intro hl
    obtain ⟨site, hsite, rfl⟩ := List.mem_map.mp hl
    obtain ⟨first, hfirst, hplace⟩ := exists_first code hsite
    rw [← hplace] at hfirst ⊢
    exact List.mem_map.mpr ⟨_, mem_added.mpr ⟨first, hfirst, .inr h, rfl⟩, rfl⟩

/-- Leaving out what is only possible takes away warnings and nothing else. What is left are the definite
findings among all, in the same order. Either way each place comes once at most, and the places come in the
order in which the sites first have them. -/
theorem added_without_possible (c : DivisionCheck) (code : Code) :
    added { c with reportPossible := false } code =
      (added { c with reportPossible := true } code).filter (fun d => d.id == "divByZero") ∧
    (∀ d ∈ added { c with reportPossible := true } code, d.id ≠ "divByZero" →
      d.id = "divByZeroPossible" ∧ d.severity = .warning) ∧
    (∀ l, l ∈ (added { c with reportPossible := true } code).map Diagnostic.location ↔
      l ∈ c.sites.map (place code)) ∧
    ∀ wanted : Bool,
      ((added { c with reportPossible := wanted } code).map Diagnostic.location).Nodup ∧
      (added { c with reportPossible := wanted } code).Pairwise fun d e =>
        (c.sites.map (place code)).idxOf d.location < (c.sites.map (place code)).idxOf e.location := by
  refine ⟨?_, fun d hd hid => ?_, fun l => mem_locations rfl, fun wanted => ?_⟩
  · rw [added_eq, added_eq, List.filter_map, List.filter_filter]
    congr 1
    apply List.filter_congr
    intro site _
    simp [id_eq_definite, Bool.beq_eq_decide_eq]
  · obtain ⟨site, -, -, rfl⟩ := mem_added.mp hd
    rw [Ne, id_eq_definite] at hid
    rw [id_diagnosticAt, severity_diagnosticAt, if_neg hid, if_neg hid]
    exact ⟨rfl, rfl⟩
  · exact ⟨added_nodup _ code, added_ordered { c with reportPossible := wanted } code⟩

def ErrorAt (ds : List Diagnostic) (l : Location) : Prop :=
  ∃ d ∈ ds, d.location = l ∧ d.id = "divByZero" ∧ d.severity = .error

/-- A place is an error if the first site there is definite. -/
theorem errorAt_added : ErrorAt (c.added code) l ↔
    ∃ site, c.sites.find? (fun t => place code t == l) = some site ∧ site.divisor = .zero := by
  constructor
  · rintro ⟨d, hd, rfl, hid, -⟩
    obtain ⟨site, hfind, -, rfl⟩ := mem_added.mp hd
    exact ⟨site, hfind, by simpa [isDefinite] using id_eq_definite.mp hid⟩
  · rintro ⟨site, hfind, hzero⟩
    have hplace : place code site = l := by simpa using List.find?_some hfind
    have hdefinite : isDefinite site = true := by simpa [isDefinite] using hzero
    refine ⟨_, mem_added.mpr ⟨site, hplace ▸ hfind, .inl hdefinite, rfl⟩, hplace,
      id_eq_definite.mpr hdefinite, ?_⟩
    rw [severity_diagnosticAt, if_pos hdefinite]

def Agree (code : Code) (sites : List Site) : Prop :=
  ∀ s ∈ sites, ∀ t ∈ sites, place code s = place code t → s.divisor = .zero → t.divisor = .zero

theorem Agree.errorAt_iff (h : Agree code c.sites) :
    ErrorAt (c.added code) l ↔ ∃ site ∈ c.sites, place code site = l ∧ site.divisor = .zero := by
  rw [errorAt_added]
  constructor
  · rintro ⟨site, hfind, hzero⟩
    exact ⟨site, List.mem_of_find?_eq_some hfind, by simpa using List.find?_some hfind, hzero⟩
  · rintro ⟨site, hsite, rfl, hzero⟩
    obtain ⟨first, hfirst, hplace⟩ := exists_first code hsite
    exact ⟨first, hfirst, h site hsite first (List.mem_of_find?_eq_some hfirst) hplace.symm hzero⟩

theorem Agree.perm {sites' : List Site} (h : Agree code sites) (hperm : sites'.Perm sites) :
    Agree code sites' := fun s hs t ht => h s (hperm.subset hs) t (hperm.subset ht)

/-- Whether possible findings are wanted or not, there is at most one diagnostic for each place, and it is an
error just if the first site there divides by zero. So every place where some site divides by zero is an
error, in whatever order the sites come, if and only if the sites at a place agree on it. -/
theorem first_site_decides (c : DivisionCheck) (code : Code) :
    ((c.added code).map Diagnostic.location).Nodup ∧
    (∀ l, ErrorAt (c.added code) l ↔
      ∃ site, c.sites.find? (fun t => place code t == l) = some site ∧ site.divisor = .zero) ∧
    ((∀ sites, sites.Perm c.sites → ∀ l, ErrorAt (added { c with sites := sites } code) l ↔
      ∃ site ∈ c.sites, place code site = l ∧ site.divisor = .zero) ↔ Agree code c.sites) := by
  refine ⟨added_nodup c code, fun l => errorAt_added, fun h s hs t ht hplace hzero => ?_, ?_⟩
  · -- with the other site in front, it is the one that decides
    have herror := (h (t :: c.sites.erase t) (List.perm_cons_erase ht).symm (place code t)).mpr
      ⟨s, hs, hplace, hzero⟩
    obtain ⟨first, hfirst, hdecides⟩ := errorAt_added.mp herror
    have hhead : (t :: c.sites.erase t).find? (fun u => place code u == place code t) = some t :=
      List.find?_cons_of_pos (beq_self_eq_true (place code t))
    cases hhead.symm.trans hfirst
    exact hdecides
  · intro h sites hperm l
    rw [Agree.errorAt_iff (c := { c with sites := sites }) (h.perm hperm)]
    simp only [hperm.mem_iff]

def expansion : Code := ⟨#[
  -- the tokens of `x / d + x / 0`, all at one place as a macro leaves them
  { text := "x", file := "m.c", line := 4, column := 9, parent := some 1, variableKey := some (.id 2),
    type := some { base := .int } },
  { text := "/", file := "m.c", line := 4, column := 9, left := some 0, right := some 2, parent := some 3,
    type := some { base := .int } },
  { text := "d", file := "m.c", line := 4, column := 9, parent := some 1, variableKey := some (.id 3),
    type := some { base := .int } },
  { text := "+", file := "m.c", line := 4, column := 9, left := some 1, right := some 5,
    type := some { base := .int } },
  { text := "x", file := "m.c", line := 4, column := 9, parent := some 5, variableKey := some (.id 2),
    type := some { base := .int } },
  { text := "/", file := "m.c", line := 4, column := 9, left := some 4, right := some 6, parent := some 3,
    type := some { base := .int } },
  { text := "0", file := "m.c", line := 4, column := 9, parent := some 5, isNumber := true,
    type := some { base := .int } }]⟩

def expansionSites : List Site := (expansion.runBlock [0, 1, 2, 3, 4, 5, 6] .empty).sites

/-- The zero comes second and is not reported. In the other order it is. -/
theorem late_zero_unreported :
    expansionSites.map (fun s => (place expansion s, s.divisor, isSuspect s)) =
      [(⟨"m.c", 4, 9⟩, .top, true), (⟨"m.c", 4, 9⟩, .zero, true)] ∧
    (added { sites := expansionSites, reportPossible := true } expansion).map Diagnostic.id =
      ["divByZeroPossible"] ∧
    added { sites := expansionSites, reportPossible := false } expansion = [] ∧
    (added { sites := expansionSites.reverse, reportPossible := false } expansion).map Diagnostic.id =
      ["divByZero"] :=
  ⟨rfl, rfl, rfl, rfl⟩

end SignFlow.DivisionCheck
