/-
  What a reader of the store answers.
-/
import JavaToCpp.Migration.Reader
import JavaToCpp.Proofs.Migration.Run

namespace JavaToCpp.Migration

open List

variable {s s' : Store} {g h : Grammar} {gs : List Grammar} {v : Int}

/-! ## Versions -/

/-- The grammar says the same as the one that was committed as the version. -/
def IsVersion (gs : List Grammar) (v : Int) (g : Grammar) : Prop :=
  ∃ (k : Nat) (h : Grammar), v = k + 1 ∧ gs[k]? = some h ∧ g.Alike h

theorem IsVersion.append (hv : IsVersion gs v g) (gs' : List Grammar) :
    IsVersion (gs ++ gs') v g := by
  obtain ⟨k, h, rfl, hk, halike⟩ := hv
  obtain ⟨hlt, -⟩ := List.getElem?_eq_some_iff.1 hk
  exact ⟨k, h, rfl, by rw [getElem?_append_left hlt, hk], halike⟩

theorem isVersion_length (hlast : gs.getLast? = some h) (halike : g.Alike h) :
    IsVersion gs gs.length g := by
  have hne : gs ≠ [] := by
    rintro rfl
    cases hlast
  have hpos := length_pos_iff.2 hne
  refine ⟨gs.length - 1, h, by omega, ?_, halike⟩
  rw [← getLast?_eq_getElem?, hlast]

theorem IsVersion.of_length (hv : IsVersion gs gs.length g) :
    ∃ h, gs.getLast? = some h ∧ g.Alike h := by
  obtain ⟨k, h, hlength, hk, halike⟩ := hv
  refine ⟨h, ?_, halike⟩
  rw [getLast?_eq_getElem?, ← hk]
  congr 1
  omega

theorem Stored.alike_of_ofRows (hs : Stored s gs) (hgs : ∀ g ∈ gs, g.Readable)
    (hrows : Grammar.ofRows s.storedRules = .ok (some g)) :
    ∃ h, gs.getLast? = some h ∧ g.Alike h := by
  rw [Store.storedRules, hs.rules] at hrows
  cases hlast : gs.getLast? with
  | none =>
    have hempty : Grammar.ofRows [] = .ok none := rfl
    rw [hlast, Option.map_none, Option.getD_none, mergeSort_nil, map_nil, hempty] at hrows
    cases hrows
  | some h =>
    have hreadable := hgs h (mem_of_getLast? hlast)
    have hne := toRows_ne_nil hreadable
    refine ⟨h, rfl, Grammar.alike_of_load_rows hreadable ?_⟩
    simp only [hlast, Option.map_some, Option.getD_some, Grammar.mergeSort_toRows, Grammar.ofRows,
      List.isEmpty_iff, map_eq_nil_iff, hne, if_false] at hrows
    cases hload : Grammar.load
        (Grammar.textOfRows (h.toRows.map fun row => (row.nonterminal, row.alternative))) with
    | error e =>
      rw [hload] at hrows
      cases hrows
    | ok g' =>
      rw [hload] at hrows
      cases hrows
      rfl

/-! ## Readers -/

namespace Reader

variable {reader reader' : Reader}

theorem fetch_spec {r : Except Failure Grammar} (hrun : fetch.run s = (r, s')) :
    Keeps s s' ∧ ∀ g, r = .ok g → Grammar.ofRows s.storedRules = .ok (some g) := by
  rcases bind_adapt_cases hrun with ⟨rows, s₁, hrules, hrun⟩ | ⟨e, hrules, rfl⟩
  · obtain ⟨hkeeps, hrows⟩ := rules_spec hrules
    rw [hrows _ rfl] at hrun
    split at hrun
    · rename_i g hg
      cases hrun
      refine ⟨hkeeps, ?_⟩
      rintro _ ⟨⟩
      exact hg
    · cases hrun
      exact ⟨hkeeps, nofun⟩
    · cases hrun
      exact ⟨hkeeps, nofun⟩
  · exact ⟨(rules_spec hrules).1, nofun⟩

theorem refresh_spec {r : Except Failure (Grammar × Int × Reader)}
    (hrun : (do let g ← fetch; return (g, v, ⟨some (g, v)⟩) :
      Store.Action Failure (Grammar × Int × Reader)).run s = (r, s')) :
    Keeps s s' ∧ ∀ g v' reader', r = .ok (g, v', reader') →
      v' = v ∧ reader'.kept = some (g, v) ∧ Grammar.ofRows s.storedRules = .ok (some g) := by
  rcases bind_cases hrun with ⟨g, s₁, hfetch, hrun⟩ | ⟨e, hfetch, rfl⟩
  · obtain ⟨hkeeps, hg⟩ := fetch_spec hfetch
    cases hrun
    refine ⟨hkeeps, ?_⟩
    rintro _ _ _ ⟨⟩
    exact ⟨rfl, rfl, hg g rfl⟩
  · exact ⟨(fetch_spec hfetch).1, nofun⟩

/-- A reader answers with the number of the latest version, and with what it keeps under this number
    or what the rows give. -/
theorem active_spec {r : Except Failure (Grammar × Int × Reader)}
    (hrun : reader.active.run s = (r, s')) :
    Keeps s s' ∧ ∀ g v reader', r = .ok (g, v, reader') → v = s.latest ∧
      reader'.kept = some (g, v) ∧
      (reader' = reader ∨ Grammar.ofRows s.storedRules = .ok (some g)) := by
  rcases bind_adapt_cases hrun with ⟨v, s₁, hversion, hrun⟩ | ⟨e, hversion, rfl⟩
  · obtain ⟨hkeeps, hv⟩ := version_spec hversion
    obtain rfl := hv v rfl
    have hrows : s₁.storedRules = s.storedRules := by
      rw [Store.storedRules, hkeeps.tables, Store.storedRules]
    -- whatever is fetched now is what the rows gave before
    have hfresh : ∀ {r : Except Failure (Grammar × Int × Reader)},
        (do let g ← fetch; return (g, s.latest, ⟨some (g, s.latest)⟩) :
          Store.Action Failure (Grammar × Int × Reader)).run s₁ = (r, s') →
        Keeps s s' ∧ ∀ g v reader', r = .ok (g, v, reader') → v = s.latest ∧
          reader'.kept = some (g, v) ∧
          (reader' = reader ∨ Grammar.ofRows s.storedRules = .ok (some g)) := by
      intro r hrun
      obtain ⟨hkeeps', hr⟩ := refresh_spec hrun
      refine ⟨hkeeps.keeps hkeeps', fun g v reader' he => ?_⟩
      obtain ⟨rfl, hkept, hg⟩ := hr g v reader' he
      exact ⟨rfl, hkept, .inr (hrows ▸ hg)⟩
    by_cases hzero : s.latest = 0
    · simp only [hzero, if_true] at hrun
      cases hrun
      exact ⟨hkeeps, by simp⟩
    · simp only [hzero, if_false] at hrun
      cases hkept : reader.kept with
      | none =>
        rw [hkept] at hrun
        exact hfresh hrun
      | some p =>
        obtain ⟨g, kept⟩ := p
        rw [hkept] at hrun
        by_cases heq : kept = s.latest
        · simp only [heq, if_true] at hrun
          cases hrun
          refine ⟨hkeeps, ?_⟩
          rintro _ _ _ ⟨⟩
          exact ⟨rfl, by rw [hkept, heq], .inl rfl⟩
        · simp only [heq, if_false] at hrun
          exact hfresh hrun
  · exact ⟨(version_spec hversion).1, by simp⟩

/-- What the reader keeps is a version with its number. -/
def Faithful (gs : List Grammar) (reader : Reader) : Prop :=
  ∀ g v, reader.kept = some (g, v) → IsVersion gs v g

theorem Faithful.append (hr : Faithful gs reader) (gs' : List Grammar) :
    Faithful (gs ++ gs') reader := fun g v hkept => (hr g v hkept).append gs'

/-- **A reader answers with the latest version and its number.** -/
theorem isVersion_of_active (hs : Stored s gs) (hgs : ∀ g ∈ gs, g.Readable)
    (hr : Faithful gs reader) (hrun : reader.active.run s = (.ok (g, v, reader'), s')) :
    v = s.latest ∧ IsVersion gs v g ∧ Faithful gs reader' := by
  obtain ⟨hv, hkept, hsource⟩ := (active_spec hrun).2 g v reader' rfl
  have hversion : IsVersion gs v g := by
    rcases hsource with rfl | hrows
    · exact hr g v hkept
    · obtain ⟨h, hlast, halike⟩ := hs.alike_of_ofRows hgs hrows
      rw [hv, hs.latest]
      exact isVersion_length hlast halike
  refine ⟨hv, hversion, fun g' v' hkept' => ?_⟩
  cases hkept.symm.trans hkept'
  exact hversion

end Reader

end JavaToCpp.Migration
