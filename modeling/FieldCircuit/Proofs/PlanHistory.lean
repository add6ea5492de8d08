import FieldCircuit.Proofs.Entries
import FieldCircuit.Proofs.Plan
import Mathlib.Data.Set.Card

/-!
# Histories of plan caches

What a plan cache does over a whole sequence of requests and clearings. A history notes, since the cache
has last been cleared, the answers that it gave and the builders that it ran with what they came to. A
builder that runs leaves its note itself, so that a builder that is not run leaves none.
-/

namespace FieldCircuit.PlanCache

/-- What is asked of a cache: a plan for a key, with what its builder comes to if it is run, or to forget
everything. -/
inductive Call
  | get (key : PlanKey) (outcome : Except KernelError Operation)
  | clear

structure History where
  cache : PlanCache
  /-- The requests in order, with their answers. -/
  requests : List (PlanKey × Except KernelError Plan)
  /-- The builders that ran, in order, with what they came to. -/
  builds : List (PlanKey × Except KernelError Operation)

def succeeded {α : Type} (record : List (PlanKey × Except KernelError α)) : List PlanKey :=
  (record.filter (·.2.isOk)).map Prod.fst

def noting (key : PlanKey) (outcome : Except KernelError Operation) :
    Unit → StateM (List (PlanKey × Except KernelError Operation)) (Except KernelError Operation) :=
  fun _ => do
    modify (· ++ [(key, outcome)])
    return outcome

namespace History

def empty : History := ⟨.empty, [], []⟩

def perform (h : History) : Call → History
  | .get key outcome =>
    let ((answer, cache), builds) := (h.cache.getM key (noting key outcome)).run h.builds
    ⟨cache, h.requests ++ [(key, answer)], builds⟩
  | .clear => ⟨h.cache.clear, [], []⟩

def run (calls : List Call) : History := calls.foldl perform empty

end History

section Succeeded

variable {α : Type} {record : List (PlanKey × Except KernelError α)} {key other : PlanKey} {a : α}

theorem mem_succeeded : key ∈ succeeded record ↔ ∃ a, (key, .ok a) ∈ record := by
  simp only [succeeded, List.mem_map, List.mem_filter]
  constructor
  · rintro ⟨⟨_, _ | a⟩, ⟨hmem, hok⟩, rfl⟩
    · cases hok
    · exact ⟨a, hmem⟩
  · rintro ⟨a, hmem⟩
    exact ⟨_, ⟨hmem, rfl⟩, rfl⟩

theorem succeeded_append_ok :
    succeeded (record ++ [(key, .ok a)]) = succeeded record ++ [key] := by
  simp [succeeded, Except.isOk, Except.toBool]

theorem succeeded_append_error {e : KernelError} :
    succeeded (record ++ [(key, .error e)]) = succeeded record := by
  simp [succeeded, Except.isOk, Except.toBool]

theorem ok_mem_append_error {e : KernelError} :
    (other, Except.ok a) ∈ record ++ [(key, .error e)] ↔ (other, .ok a) ∈ record := by
  simp

end Succeeded

namespace History

variable {h : History} {key : PlanKey} {plan : Plan} {outcome : Except KernelError Operation}

theorem perform_of_some (hfind : h.cache.find? key = some plan) :
    h.perform (.get key outcome) =
      ⟨{ h.cache with hits := h.cache.hits + 1 }, h.requests ++ [(key, .ok plan)], h.builds⟩ := by
  rw [perform, getM_of_some hfind]
  rfl

theorem perform_of_none (hfind : h.cache.find? key = none) :
    h.perform (.get key outcome) =
      ⟨(h.cache.settle key outcome).2, h.requests ++ [(key, (h.cache.settle key outcome).1)],
        h.builds ++ [(key, outcome)]⟩ := by
  rw [perform, getM_of_none hfind]
  rfl

/-- A history agrees with its cache: the plans that are kept are those that were handed out, and they
come from the builds that succeeded. -/
structure Consistent (h : History) : Prop where
  distinct : (h.cache.slots.map Prod.fst).Nodup
  asked : ∀ key, key ∈ h.cache.slots.map Prod.fst ↔ key ∈ h.requests.map Prod.fst
  kept : ∀ key plan, h.cache.find? key = some plan ↔ (key, .ok plan) ∈ h.requests
  built : ∀ key op, (key, .ok op) ∈ h.builds ↔
    ∃ plan, h.cache.find? key = some plan ∧ plan.operation = op
  once : (succeeded h.builds).Nodup
  misses : h.cache.misses = (succeeded h.builds).length
  answers : h.cache.hits + h.cache.misses = (succeeded h.requests).length
  serials : ∀ key plan, h.cache.find? key = some plan → plan.serial < h.cache.made
  apart : ∀ key key' plan plan', h.cache.find? key = some plan → h.cache.find? key' = some plan' →
    plan.serial = plan'.serial → key = key'

theorem consistent_empty (made : Nat) : Consistent ⟨{ PlanCache.empty with made }, [], []⟩ where
  distinct := List.nodup_nil
  asked _ := Iff.rfl
  kept := by simp [find?, PlanCache.empty]
  built := by simp [find?, PlanCache.empty]
  once := List.nodup_nil
  misses := rfl
  answers := rfl
  serials := by simp [find?, PlanCache.empty]
  apart := by simp [find?, PlanCache.empty]

namespace Consistent

theorem hit (hc : h.Consistent) (hfind : h.cache.find? key = some plan) :
    Consistent
      ⟨{ h.cache with hits := h.cache.hits + 1 }, h.requests ++ [(key, .ok plan)], h.builds⟩ where
  distinct := hc.distinct
  asked other := by
    have hkey : key ∈ h.requests.map Prod.fst := List.mem_map_of_mem ((hc.kept key plan).1 hfind)
    rw [hc.asked, List.map_append, List.mem_append]
    refine ⟨.inl, ?_⟩
    rintro (hother | hother)
    · exact hother
    · rw [List.mem_singleton.1 hother]
      exact hkey
  kept other p := by
    rw [List.mem_append, ← hc.kept other p]
    refine ⟨.inl, ?_⟩
    rintro (hother | hother)
    · exact hother
    · simp only [List.mem_singleton, Prod.mk.injEq, Except.ok.injEq] at hother
      rw [hother.1, hother.2]
      exact hfind
  built := hc.built
  once := hc.once
  misses := hc.misses
  answers := by
    rw [succeeded_append_ok, List.length_append, List.length_singleton, ← hc.answers]
    exact Nat.add_right_comm _ _ _
  serials := hc.serials
  apart := hc.apart

theorem failed (hc : h.Consistent) (hfind : h.cache.find? key = none) (e : KernelError) :
    Consistent ⟨(h.cache.settle key (.error e)).2, h.requests ++ [(key, .error e)],
      h.builds ++ [(key, .error e)]⟩ := by
  have hkept : ∀ other, (h.cache.settle key (.error e)).2.find? other = h.cache.find? other := by
    intro other
    rw [settle, find?_entered]
    split
    · rename_i heq
      rw [heq, hfind]
    · rfl
  refine ⟨nodup_entered hc.distinct key none, ?_, ?_, ?_, ?_, ?_, ?_, ?_, ?_⟩
  · intro other
    change other ∈ (entered key none h.cache.slots).map Prod.fst ↔ _
    rw [mem_keys_entered, hc.asked, List.map_append, List.mem_append, or_comm]
    simp
  · intro other plan
    rw [hkept, ok_mem_append_error]
    exact hc.kept other plan
  · intro other op
    rw [ok_mem_append_error]
    simp only [hkept]
    exact hc.built other op
  · rw [succeeded_append_error]
    exact hc.once
  · rw [succeeded_append_error]
    exact hc.misses
  · rw [succeeded_append_error]
    exact hc.answers
  · intro other plan
    rw [hkept]
    exact hc.serials other plan
  · intro other other' plan plan'
    rw [hkept, hkept]
    exact hc.apart other other' plan plan'

theorem made (hc : h.Consistent) (hfind : h.cache.find? key = none) (op : Operation) :
    Consistent ⟨(h.cache.settle key (.ok op)).2, h.requests ++ [(key, .ok ⟨op, h.cache.made⟩)],
      h.builds ++ [(key, .ok op)]⟩ := by
  have hkept : ∀ other plan, (h.cache.settle key (.ok op)).2.find? other = some plan ↔
      h.cache.find? other = some plan ∨ other = key ∧ plan = ⟨op, h.cache.made⟩ := by
    intro other plan
    change find? { h.cache with slots := entered key (some ⟨op, h.cache.made⟩) h.cache.slots } other =
      some plan ↔ _
    rw [find?_entered]
    by_cases hother : other = key
    · rw [if_pos hother, hother, hfind]
      simp [eq_comm]
    · simp [hother]
  refine ⟨nodup_entered hc.distinct key _, ?_, ?_, ?_, ?_, ?_, ?_, ?_, ?_⟩
  · intro other
    change other ∈ (entered key _ h.cache.slots).map Prod.fst ↔ _
    rw [mem_keys_entered, hc.asked, List.map_append, List.mem_append, or_comm]
    simp
  · intro other plan
    rw [hkept, List.mem_append, hc.kept]
    simp
  · intro other op'
    rw [List.mem_append, hc.built]
    simp only [hkept, List.mem_singleton, Prod.mk.injEq, Except.ok.injEq]
    constructor
    · rintro (⟨plan, hplan, hop⟩ | ⟨rfl, rfl⟩)
      · exact ⟨plan, .inl hplan, hop⟩
      · exact ⟨⟨op', h.cache.made⟩, .inr ⟨rfl, rfl⟩, rfl⟩
    · rintro ⟨plan, hplan | ⟨rfl, rfl⟩, hop⟩
      · exact .inl ⟨plan, hplan, hop⟩
      · exact .inr ⟨rfl, hop.symm⟩
  · rw [succeeded_append_ok]
    refine List.nodup_append.2 ⟨hc.once, List.nodup_singleton key, fun other hother other' hkey => ?_⟩
    obtain ⟨op', hop'⟩ := mem_succeeded.1 hother
    obtain ⟨plan, hplan, -⟩ := (hc.built other op').1 hop'
    rintro rfl
    rw [List.mem_singleton.1 hkey, hfind] at hplan
    cases hplan
  · rw [succeeded_append_ok, List.length_append, List.length_singleton, ← hc.misses]
    rfl
  · rw [succeeded_append_ok, List.length_append, List.length_singleton, ← hc.answers]
    rfl
  · intro other plan hplan
    rcases (hkept other plan).1 hplan with hplan | ⟨-, rfl⟩
    · exact Nat.lt_succ_of_lt (hc.serials other plan hplan)
    · exact Nat.lt_succ_self _
  · intro other other' plan plan' hplan hplan' hserial
    rcases (hkept other plan).1 hplan with hold | ⟨rfl, rfl⟩
    · rcases (hkept other' plan').1 hplan' with hold' | ⟨rfl, rfl⟩
      · exact hc.apart other other' plan plan' hold hold' hserial
      · exact absurd hserial (hc.serials other plan hold).ne
    · rcases (hkept other' plan').1 hplan' with hold' | ⟨rfl, rfl⟩
      · exact absurd hserial (hc.serials other' plan' hold').ne'
      · rfl

theorem perform (hc : h.Consistent) (call : Call) : (h.perform call).Consistent := by
  cases call with
  | get key outcome => cases hfind : h.cache.find? key with
    | some plan =>
        rw [perform_of_some hfind]
        exact hc.hit hfind
    | none =>
        rw [perform_of_none hfind]
        cases outcome with
        | error e => exact hc.failed hfind e
        | ok op => exact hc.made hfind op
  | clear => exact consistent_empty h.cache.made

end Consistent

theorem consistent_run (calls : List Call) : (run calls).Consistent := by
  have hfold : ∀ {h : History}, h.Consistent → (calls.foldl perform h).Consistent := by
    induction calls with
    | nil => exact id
    | cons call calls ih => exact fun hc => ih (hc.perform call)
  exact hfold (consistent_empty 0)

structure Lawful (h : History) : Prop where
  /-- No key is built successfully twice. -/
  built_once : (succeeded h.builds).Nodup
  /-- All successful requests for a key have the same answer, and other keys have other plans. -/
  same_plan : ∀ key key' plan plan', (key, .ok plan) ∈ h.requests → (key', .ok plan') ∈ h.requests →
    ((key = key' → plan = plan') ∧ (plan.serial = plan'.serial → key = key'))
  /-- The answer is what was built for the key. -/
  own_build : ∀ key plan, (key, .ok plan) ∈ h.requests → (key, .ok plan.operation) ∈ h.builds
  /-- The keys that hold a plan are those that have been requested with success. -/
  holds : ∀ key, (h.cache.find? key).isSome ↔ key ∈ succeeded h.requests
  /-- There are as many misses as keys that hold a plan. -/
  misses : h.cache.misses = {key | (h.cache.find? key).isSome}.ncard
  /-- Hits and misses together are the successful requests. -/
  answers : h.cache.hits + h.cache.misses = (succeeded h.requests).length
  /-- The size is the number of distinct keys that have been requested. -/
  size : h.cache.size = {key | key ∈ h.requests.map Prod.fst}.ncard
  /-- A key that holds a plan is answered with it, and its builder does not run. -/
  found : ∀ key plan outcome, h.cache.find? key = some plan →
    (h.perform (.get key outcome)).requests = h.requests ++ [(key, .ok plan)] ∧
      (h.perform (.get key outcome)).builds = h.builds
  /-- The builder of a key without a plan runs, and a new plan is made of what it builds. -/
  made : ∀ key op, h.cache.find? key = none →
    ∃ plan, plan.operation = op ∧
      (h.perform (.get key (.ok op))).requests = h.requests ++ [(key, .ok plan)] ∧
      (h.perform (.get key (.ok op))).builds = h.builds ++ [(key, .ok op)]
  /-- If the builder fails its error is the answer, nothing is counted, and the key stays without a
  plan. -/
  failed : ∀ key e, h.cache.find? key = none →
    (h.perform (.get key (.error e))).requests = h.requests ++ [(key, .error e)] ∧
      (h.perform (.get key (.error e))).builds = h.builds ++ [(key, .error e)] ∧
      (h.perform (.get key (.error e))).cache.hits = h.cache.hits ∧
      (h.perform (.get key (.error e))).cache.misses = h.cache.misses ∧
      (h.perform (.get key (.error e))).cache.find? key = none

theorem ncard_keys {keys : List PlanKey} (h : keys.Nodup) : {key | key ∈ keys}.ncard = keys.length := by
  rw [← List.toFinset_card_of_nodup h, ← Set.ncard_coe_finset, List.coe_toFinset]

theorem Consistent.isSome_iff (hc : h.Consistent) (key : PlanKey) :
    (h.cache.find? key).isSome ↔ key ∈ succeeded h.requests := by
  simp only [Option.isSome_iff_exists, mem_succeeded, hc.kept]

theorem Consistent.isSome_iff_built (hc : h.Consistent) (key : PlanKey) :
    (h.cache.find? key).isSome ↔ key ∈ succeeded h.builds := by
  simp only [Option.isSome_iff_exists, mem_succeeded, hc.built]
  exact ⟨fun ⟨plan, hplan⟩ => ⟨plan.operation, plan, hplan, rfl⟩, fun ⟨_, plan, hplan, _⟩ => ⟨plan, hplan⟩⟩

theorem Consistent.lawful (hc : h.Consistent) : h.Lawful where
  built_once := hc.once
  same_plan := by
    intro key key' plan plan' hplan hplan'
    have hfind := (hc.kept key plan).2 hplan
    have hfind' := (hc.kept key' plan').2 hplan'
    refine ⟨?_, hc.apart key key' plan plan' hfind hfind'⟩
    rintro rfl
    exact Option.some.inj (hfind.symm.trans hfind')
  own_build key plan hplan :=
    (hc.built key plan.operation).2 ⟨plan, (hc.kept key plan).2 hplan, rfl⟩
  holds := hc.isSome_iff
  misses := by
    simp only [hc.isSome_iff_built]
    rw [ncard_keys hc.once, hc.misses]
  answers := hc.answers
  size := by
    simp only [← hc.asked]
    rw [ncard_keys hc.distinct, List.length_map]
    rfl
  found key plan outcome hfind := by
    rw [perform_of_some hfind]
    exact ⟨rfl, rfl⟩
  made key op hfind := by
    rw [perform_of_none hfind]
    exact ⟨_, rfl, rfl, rfl⟩
  failed key e hfind := by
    rw [perform_of_none hfind]
    refine ⟨rfl, rfl, rfl, rfl, ?_⟩
    exact (find?_entered h.cache key none key).trans (if_pos rfl)

end History

/-- After any sequence of requests and clearings, a plan cache has built a plan for each key at most once
since it was cleared last, and hands out this plan whenever the key is requested; it builds exactly
where there is no plan yet, and its counts are those of the requests. -/
theorem run_lawful (calls : List Call) : (History.run calls).Lawful :=
  (History.consistent_run calls).lawful

/-- A build that fails is neither a hit nor a miss, the next one succeeds, and the third request finds
its plan. -/
example (op : Operation) (e : KernelError) :
    let key : PlanKey := ⟨.fft .forward, .fourByTwo, 0, .standard⟩
    let h := History.run [.get key (.error e), .get key (.ok op), .get key (.error e)]
    (h.cache.hits, h.cache.misses, h.cache.size, h.builds.length) = (1, 1, 1, 2) := rfl

end FieldCircuit.PlanCache
