import Atmark.Cache.Watched
import Atmark.Proofs.Cache.Meaning

/-! Calls of a watched cache that overlap. Keeping a fragment is two steps, to watch its path and to store it,
and so is forgetting a changed path, to stop watching it and to delete its fragments; the steps of different
calls fall between each other in any order (`Step`). A path that is no longer watched must have no fragment
that nobody is about to delete (`Guarded`). Every step keeps that but one: a store whose path was evicted
since it was watched (`guarded_step`), after which the fragment stays whatever happens to its file
(`late_store`). -/
namespace Atmark
namespace WatchedCache

/-- What a call has still to do after its first step. -/
inductive Rest where
  | store (key : Text) (f : Fragment)
  | forget (path : Text)

/-- A cache and the calls that are in progress. -/
structure Shared where
  cache : WatchedCache
  pending : List Rest

/-- A step of some call. -/
inductive Move where
  | watch (key : Text) (f : Fragment)
  | store (key : Text) (f : Fragment)
  | unwatch (path : Text)
  | forget (path : Text)

/-- The path of a key. -/
def pathOf (key : Text) : Text := (Cache.splitKey key).2

/-- The steps of `put` and of `evict`, each under one lock. A call that cannot watch its path ends there. -/
inductive Step : Shared → Move → Shared → Prop
  | watch {s : Shared} {key : Text} {f : Fragment} {w : WatchedCache} : s.cache.watch (pathOf key) = .ok w →
      Step s (.watch key f) ⟨w, .store key f :: s.pending⟩
  | refuse {s : Shared} {key : Text} {f : Fragment} {t : FileTrouble} :
      s.cache.watch (pathOf key) = .error t →
      Step s (.watch key f) ⟨{ s.cache with trouble := some (s.cache.trouble.getD t) }, s.pending⟩
  | store {s : Shared} {key : Text} {f : Fragment} {before after : List Rest} :
      s.pending = before ++ .store key f :: after →
      Step s (.store key f) ⟨s.cache.store key f, before ++ after⟩
  | unwatch {s : Shared} {path : Text} :
      Step s (.unwatch path) ⟨s.cache.unwatch path, .forget path :: s.pending⟩
  | forget {s : Shared} {path : Text} {before after : List Rest} :
      s.pending = before ++ .forget path :: after →
      Step s (.forget path) ⟨s.cache.forget path, before ++ after⟩

/-- A run from an empty cache, with the states before its steps. -/
inductive Run (fs : Files) : List (Shared × Move) → Shared → Prop
  | nil : Run fs [] ⟨{ files := fs }, []⟩
  | snoc {trace : List (Shared × Move)} {s t : Shared} {m : Move} : Run fs trace s → Step s m t →
      Run fs (trace ++ [(s, m)]) t

/-- The path is watched, or its fragments are about to be deleted. -/
def Shared.Covers (s : Shared) (path : Text) : Prop := path ∈ s.cache.watched ∨ .forget path ∈ s.pending

/-- Every fragment has its path watched or is about to be deleted. -/
def Shared.Guarded (s : Shared) : Prop := ∀ key, (s.cache.get? key).isSome → s.Covers (pathOf key)

/-- A step that stores a fragment finds its path still watched, or it comes before a deletion. -/
def Move.Timely (s : Shared) (m : Move) : Prop := ∀ key f, m = .store key f → s.Covers (pathOf key)

/-! ## One step -/

theorem watch_eq_ok {w w' : WatchedCache} {path : Text} (h : w.watch path = .ok w') :
    w'.cache = w.cache ∧ ∀ p ∈ w.watched, p ∈ w'.watched := by
  unfold watch at h
  split at h
  · cases h
    exact ⟨rfl, fun _ hp => hp⟩
  split at h
  · cases h
  · cases h
    exact ⟨rfl, fun _ hp => .tail _ hp⟩

/-- What a call has still to do does not change while another one goes on. -/
theorem mem_of_other {before after : List Rest} {r r' : Rest} (hne : r ≠ r') :
    r ∈ before ++ r' :: after ↔ r ∈ before ++ after := by
  simp [hne]

/-- A step leaves every fragment guarded exactly if it is timely. -/
theorem guarded_step {s t : Shared} {m : Move} (hs : s.Guarded) (h : Step s m t) :
    t.Guarded ↔ m.Timely s := by
  cases h with
  | @watch key f w hw =>
    obtain ⟨hcache, hwatched⟩ := watch_eq_ok hw
    refine iff_of_true (fun k hk => ?_) (by rintro k f ⟨⟩)
    have hk : (s.cache.get? k).isSome := by simpa [get?, hcache] using hk
    exact (hs k hk).imp (hwatched _) (.tail _)
  | refuse _ => exact iff_of_true hs (by rintro k f ⟨⟩)
  | @store key f before after hpending =>
    have hcovers (path : Text) :
        Shared.Covers ⟨s.cache.store key f, before ++ after⟩ path ↔ s.Covers path := by
      simp only [Shared.Covers, WatchedCache.store, hpending]
      rw [mem_of_other (by simp)]
    have hget (k : Text) : (s.cache.store key f).get? k = if k = key then some f else s.cache.get? k :=
      Cache.get?_put ..
    constructor
    · rintro ht k f' ⟨⟩
      exact (hcovers _).mp (ht key (by simp [hget]))
    · intro htimely k hk
      refine (hcovers _).mpr ?_
      by_cases hkey : k = key
      · exact hkey ▸ htimely key f rfl
      · exact hs k (by simpa [hget, hkey] using hk)
  | @unwatch path =>
    refine iff_of_true (fun k hk => ?_) (by rintro k f ⟨⟩)
    by_cases hpath : pathOf k = path
    · exact .inr (hpath ▸ .head _)
    · refine (hs k hk).imp (fun hmem => ?_) (.tail _)
      exact List.mem_filter.mpr ⟨hmem, by simpa using hpath⟩
  | @forget path before after hpending =>
    refine iff_of_true (fun k hk => ?_) (by rintro k f ⟨⟩)
    have hget : (s.cache.forget path).get? k = if pathOf k = path then none else s.cache.get? k :=
      Cache.get?_erase_path ..
    by_cases hpath : pathOf k = path
    · simp [hget, hpath] at hk
    · refine (hs k (by simpa [hget, hpath] using hk)).imp id fun hmem => ?_
      rw [hpending, mem_of_other (by simpa using hpath)] at hmem
      exact hmem

theorem Step.store_head {w : WatchedCache} {pending : List Rest} {key : Text}
    {f : Fragment} :
    Step ⟨w, .store key f :: pending⟩ (.store key f) ⟨w.store key f, pending⟩ :=
  .store (show _ = [] ++ .store key f :: pending from rfl)

theorem Step.forget_head {w : WatchedCache} {pending : List Rest} {path : Text} :
    Step ⟨w, .forget path :: pending⟩ (.forget path) ⟨w.forget path, pending⟩ :=
  .forget (show _ = [] ++ .forget path :: pending from rfl)

/-! ## Whole runs -/

theorem Run.guarded_iff {fs : Files} {trace : List (Shared × Move)} {s : Shared} (h : Run fs trace s) :
    (∀ e ∈ trace, e.2.Timely e.1) ↔ (∀ e ∈ trace, e.1.Guarded) ∧ s.Guarded := by
  induction h with
  | nil =>
    refine iff_of_true (by simp) ⟨by simp, ?_⟩
    rintro key hkey
    cases hkey
  | snoc _ hstep ih =>
    simp only [List.forall_mem_append, List.forall_mem_singleton, ih]
    constructor
    · rintro ⟨⟨htrace, hs⟩, hm⟩
      exact ⟨⟨htrace, hs⟩, (guarded_step hs hstep).mpr hm⟩
    · rintro ⟨⟨htrace, hs⟩, ht⟩
      exact ⟨⟨htrace, hs⟩, (guarded_step hs hstep).mp ht⟩

/-- A change that is reported under the path of a fragment evicts it. -/
theorem get?_evict {w : WatchedCache} {key name : Text} (h : (w.evict name).1 = pathOf key) :
    (w.evict name).2.get? key = none := by
  have hget : (w.evict name).2.get? key = if pathOf key = (w.evict name).1 then none else w.get? key :=
    Cache.get?_erase_path ..
  rw [hget, if_pos h.symm]

/-- Whatever calls overlap: at every moment of a run each fragment is watched or about to be deleted, exactly
if every store finds its path still watched or a deletion of it still to come. If it does, each fragment is
watched whenever no call is in progress, and a change that is reported for its path evicts it. -/
theorem watched_of_timely {fs : Files} {trace : List (Shared × Move)} {s : Shared} (h : Run fs trace s) :
    ((∀ e ∈ trace, e.2.Timely e.1) ↔ (∀ e ∈ trace, e.1.Guarded) ∧ s.Guarded) ∧
    ((∀ e ∈ trace, e.2.Timely e.1) → s.pending = [] → ∀ key, (s.cache.get? key).isSome →
      pathOf key ∈ s.cache.watched ∧
      ∀ name, (s.cache.evict name).1 = pathOf key → (s.cache.evict name).2.get? key = none) := by
  refine ⟨h.guarded_iff, fun htimely hpending key hkey => ⟨?_, fun name => get?_evict⟩⟩
  have hcovers := (h.guarded_iff.mp htimely).2 key hkey
  simpa [Shared.Covers, hpending] using hcovers

/-- A fragment that is stored while its path is being evicted, before the deletion, and then kept again. -/
theorem watched_of_timely_overlap : ∃ trace s, Run ⟨[(utf8 "a", utf8 "X")], false⟩ trace s ∧
    (s.cache.get? (utf8 "html:a")).isSome ∧ pathOf (utf8 "html:a") ∈ s.cache.watched := by
  have hwatch (c : Cache) : (⟨⟨[(utf8 "a", utf8 "X")], false⟩, [], c, none⟩ : WatchedCache).watch
      (pathOf (utf8 "html:a")) = .ok ⟨⟨[(utf8 "a", utf8 "X")], false⟩, [utf8 "a"], c, none⟩ := rfl
  have hstarted := (Run.nil.snoc (.watch (f := ⟨[], [], []⟩) (hwatch {}))).snoc (@Step.unwatch _ (utf8 "a"))
  have hstored := hstarted.snoc (.store (show _ = [.forget (utf8 "a")] ++ _ :: [] from rfl))
  have hevicted := hstored.snoc .forget_head
  have hrun := (hevicted.snoc (.watch (f := ⟨[], [], []⟩) (hwatch _))).snoc .store_head
  have htimely := (watched_of_timely hrun).2 ?_ rfl (utf8 "html:a") rfl
  · exact ⟨_, _, hrun, rfl, htimely.1⟩
  · -- both stores are timely, the first one because of the deletion that is still to come
    have hother {s : Shared} {m : Move} (hm : ∀ key f, m ≠ .store key f) : m.Timely s :=
      fun key f h => (hm key f h).elim
    simp only [List.forall_mem_append, List.forall_mem_singleton, List.nil_append]
    refine ⟨⟨⟨⟨⟨hother ?_, hother ?_⟩, ?_⟩, hother ?_⟩, hother ?_⟩, ?_⟩
    · simp
    · simp
    · rintro key f ⟨⟩
      exact .inr (.head _)
    · simp
    · simp
    · rintro key f ⟨⟩
      exact .inl (.head _)

/-! ## Whole calls, and a store that comes too late -/

section Calls
variable {fs : Files} {trace : List (Shared × Move)} {w : WatchedCache} {pending : List Rest}

/-- To keep a fragment is to watch its path and then to store it. -/
theorem Run.put (h : Run fs trace ⟨w, pending⟩) (key : Text) (f : Fragment) :
    ∃ trace, Run fs trace ⟨w.put key f, pending⟩ := by
  cases hw : w.watch (pathOf key) with
  | ok w' =>
    have hput : w.put key f = w'.store key f := by
      rw [pathOf] at hw
      rw [WatchedCache.put, hw]
    rw [hput]
    exact ⟨_, .snoc (.snoc h (.watch hw)) .store_head⟩
  | error t =>
    have hput : w.put key f = { w with trouble := some (w.trouble.getD t) } := by
      rw [pathOf] at hw
      rw [WatchedCache.put, hw]
    rw [hput]
    exact ⟨_, .snoc h (.refuse (f := f) hw)⟩

/-- To forget a changed path is to stop watching it and then to delete its fragments. -/
theorem Run.evict (h : Run fs trace ⟨w, pending⟩) (name : Text) :
    ∃ trace, Run fs trace ⟨(w.evict name).2, pending⟩ :=
  ⟨_, .snoc (.snoc h .unwatch) .forget_head⟩

/-- A path that is evicted while a fragment of it is kept is no longer watched, but the fragment stays. -/
theorem late_store {key : Text} (f : Fragment) (hkey : refusal? fs (pathOf key) = none) : ∃ trace s,
    Run fs trace s ∧ s.pending = [] ∧ (s.cache.get? key).isSome ∧ pathOf key ∉ s.cache.watched := by
  have hwatch : ({ files := fs } : WatchedCache).watch (pathOf key) =
      .ok { files := fs, watched := [pathOf key] } := by simp [WatchedCache.watch, hkey]
  have hrun := Run.nil.snoc (.watch (f := f) hwatch)
  have hevicted := (hrun.snoc (@Step.unwatch _ (pathOf key))).snoc .forget_head
  refine ⟨_, _, hevicted.snoc .store_head, rfl, ?_, ?_⟩
  · simp [WatchedCache.get?, WatchedCache.store, Cache.get?_put]
  · simp [WatchedCache.store, WatchedCache.forget, WatchedCache.unwatch]

end Calls

end WatchedCache
end Atmark
