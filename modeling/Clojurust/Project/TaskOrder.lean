import Clojurust.Lib.Traversal
import Mathlib.Data.List.Nodup
import Mathlib.Data.List.Perm.Subperm
import Mathlib.Logic.Relation

/-!
# The order of tasks

`task_order` (`crates/cljrsh-project/src/lib.rs`) on the names and `:depends` of the tasks.

* `visit`, `taskOrder` — the recursion, with a bound on the calls that are open;
* `Sorted` — every task is known, comes once, and after what it depends on;
* `wp_visit` — a visit adds what its name reaches, in a sorted way, or ends at a fault;
* `task_order_topological` — the order of any target in any project.
-/

namespace Clojurust.Project

open List Relation StateExcept

structure TaskDef where
  name : String
  depends : List String

inductive ProjectError where
  | cycle (name : String)
  | unknownTask (name : String)

/-- The lists that `visit` changes. -/
structure Lists where
  visiting : List String
  done : List String
  out : List TaskDef

def find (tasks : List TaskDef) (name : String) : Option TaskDef := tasks.find? (·.name == name)

/-- The error `none` is that more calls than `fuel` are open. -/
def visit (tasks : List TaskDef) : Nat → String → EStateM (Option ProjectError) Lists Unit
  | 0, _ => throw none
  | fuel + 1, name => do
    let s ← get
    if name ∈ s.done then return
    else if name ∈ s.visiting then throw (some (.cycle name))
    else
      match find tasks name with
      | none => throw (some (.unknownTask name))
      | some task =>
        set { s with visiting := s.visiting ++ [name] }
        task.depends.forM (visit tasks fuel)
        modify fun s => ⟨s.visiting.dropLast, s.done ++ [name], s.out ++ [task]⟩

def taskOrder (tasks : List TaskDef) (target : String) :
    Except (Option ProjectError) (List TaskDef) :=
  match visit tasks (tasks.length + 1) target ⟨[], [], []⟩ with
  | .ok _ s => .ok s.out
  | .error e _ => .error e

/-! ## Orders -/

def names (out : List TaskDef) : List String := out.map TaskDef.name

section Orders

variable (tasks : List TaskDef)

/-- The task called `a` depends on `b`. -/
def Dep (a b : String) : Prop := ∃ task, find tasks a = some task ∧ b ∈ task.depends

def Reaches : String → String → Prop := ReflTransGen (Dep tasks)

/-- Unknown, or on a cycle. -/
def Faulty (a : String) : Prop := find tasks a = none ∨ TransGen (Dep tasks) a a

def Sorted (out : List TaskDef) : Prop :=
  ∀ before task after, out = before ++ task :: after → find tasks task.name = some task ∧
    task.name ∉ names before ∧ ∀ dep ∈ task.depends, dep ∈ names before

variable {tasks} {before after : List TaskDef} {task : TaskDef} {a b : String}

theorem Sorted.left (h : Sorted tasks (before ++ after)) : Sorted tasks before := by
  rintro before' task after' rfl
  exact h before' task (after' ++ after) (by simp)

theorem Sorted.snoc (h : Sorted tasks before) (hfind : find tasks task.name = some task)
    (hnew : task.name ∉ names before) (hdeps : ∀ dep ∈ task.depends, dep ∈ names before) :
    Sorted tasks (before ++ [task]) := by
  intro before' task' after' hout
  rcases eq_nil_or_concat after' with rfl | ⟨after', last, rfl⟩
  · obtain ⟨rfl, hlast⟩ := append_inj' hout rfl
    cases hlast
    exact ⟨hfind, hnew, hdeps⟩
  · rw [concat_eq_append, ← cons_append, ← append_assoc] at hout
    exact h before' task' after' (append_inj' hout rfl).1

theorem Sorted.reaches (h : Sorted tasks before) (ha : a ∈ names before) (hreach : Reaches tasks a b) :
    b ∈ names before := by
  induction hreach with
  | refl => exact ha
  | tail _ hdep ih =>
    obtain ⟨task, htask, rfl⟩ := mem_map.mp ih
    obtain ⟨before, after, rfl⟩ := append_of_mem htask
    obtain ⟨hfind, -, hdeps⟩ := h before task after rfl
    obtain ⟨_, hfind', hb⟩ := hdep
    cases hfind.symm.trans hfind'
    simpa [names] using .inl (by simpa [names] using hdeps _ hb)

/-- What a task depends on comes before it and does not reach it. -/
theorem Sorted.not_faulty (h : Sorted tasks before) (ha : a ∈ names before) : ¬ Faulty tasks a := by
  obtain ⟨task, htask, rfl⟩ := mem_map.mp ha
  obtain ⟨before, after, rfl⟩ := append_of_mem htask
  obtain ⟨hfind, hnew, hdeps⟩ := h before task after rfl
  rintro (hunknown | hcycle)
  · cases hfind.symm.trans hunknown
  · obtain ⟨b, ⟨_, hfind', hb⟩, hback⟩ := TransGen.head'_iff.mp hcycle
    cases hfind.symm.trans hfind'
    exact hnew (h.left.reaches (hdeps b hb) hback)

/-- A task that reaches all of them is the last. -/
theorem Sorted.last (h : Sorted tasks before) (ha : a ∈ names before)
    (hreached : ∀ b ∈ names before, Reaches tasks a b) :
    ∃ before' task, before = before' ++ [task] ∧ task.name = a := by
  rcases eq_nil_or_concat before with rfl | ⟨before, task, rfl⟩
  · cases ha
  · rw [concat_eq_append] at *
    refine ⟨before, task, rfl, ?_⟩
    by_contra hne
    have hmem : a ∈ names before := by simpa [names, Ne.symm hne] using ha
    exact (h before task [] rfl).2.1 (h.left.reaches hmem (hreached _ (by simp [names])))

end Orders

/-! ## Visits -/

section Visits

variable {tasks : List TaskDef} {l l' : List String} {name : String} {task : TaskDef}
  {s s1 s2 : Lists}

/-- The lists between two calls. -/
structure Orderly (tasks : List TaskDef) (s : Lists) : Prop where
  sorted : Sorted tasks s.out
  done : s.done = names s.out
  apart : ∀ v ∈ s.visiting, v ∉ s.done

/-- What the visits of the names `l` do. -/
structure Visited (tasks : List TaskDef) (l : List String) (s s' : Lists) : Prop
    extends Orderly tasks s' where
  visiting : s'.visiting = s.visiting
  kept : s.done ⊆ s'.done
  all : l ⊆ s'.done
  reached : ∀ b ∈ s'.done, b ∈ s.done ∨ ∃ a ∈ l, Reaches tasks a b

theorem Visited.trans (h : Visited tasks l s s1) (h' : Visited tasks l' s1 s2) :
    Visited tasks (l ++ l') s s2 where
  toOrderly := h'.toOrderly
  visiting := h'.visiting.trans h.visiting
  kept := List.Subset.trans h.kept h'.kept
  all := append_subset.mpr ⟨List.Subset.trans h.all h'.kept, h'.all⟩
  reached b hb := by
    have hfirst := h.reached b
    have hsecond := h'.reached b hb
    grind

/-- The end of a visit, after what the task depends on. -/
theorem Visited.finish (hfind : find tasks name = some task) (hopen : name ∉ s.visiting)
    (h : Visited tasks task.depends { s with visiting := s.visiting ++ [name] } s1) :
    Visited tasks [name] s ⟨s1.visiting.dropLast, s1.done ++ [name], s1.out ++ [task]⟩ := by
  have hname : task.name = name := by simpa using find?_some hfind
  have hvisiting : s1.visiting = s.visiting ++ [name] := h.visiting
  have hnew : name ∉ s1.done := h.apart name (by simp [hvisiting])
  have hdeps : ∀ dep ∈ task.depends, dep ∈ names s1.out := fun dep hdep => h.done ▸ h.all hdep
  refine ⟨⟨h.sorted.snoc (hname ▸ hfind) ?_ hdeps, ?_, ?_⟩, by simp [hvisiting], ?_, by simp, ?_⟩
  · rwa [hname, ← h.done]
  · simp [names, h.done, hname]
  · simp only [hvisiting, dropLast_concat, mem_append, mem_singleton, not_or]
    exact fun v hv => ⟨h.apart v (by simp [hvisiting, hv]), ne_of_mem_of_not_mem hv hopen⟩
  · exact List.Subset.trans h.kept (subset_append_left _ _)
  · simp only [mem_append, mem_singleton]
    rintro b (hb | rfl)
    · rcases h.reached b hb with hb | ⟨dep, hdep, hreach⟩
      · exact .inl hb
      · exact .inr ⟨name, rfl, hreach.head ⟨task, hfind, hdep⟩⟩
    · exact .inr ⟨b, rfl, .refl⟩

/-- **One visit**, with fuel for the tasks that are not open. Those that are depend on the name. -/
theorem wp_visit (fuel : Nat) (hs : Orderly tasks s) (hnodup : s.visiting.Nodup)
    (hpath : ∀ v ∈ s.visiting, TransGen (Dep tasks) v name)
    (hfuel : tasks.length < s.visiting.length + fuel) :
    wp (visit tasks fuel name) (fun _ => Visited tasks [name] s)
      (fun e _ => e ≠ none ∧ ∃ b, Reaches tasks name b ∧ Faulty tasks b) s := by
  induction fuel generalizing name s with
  | zero =>
    have hknown : s.visiting ⊆ names tasks := by
      intro v hv
      obtain ⟨b, ⟨task, hfind, -⟩, -⟩ := TransGen.head'_iff.mp (hpath v hv)
      have hname : task.name = v := by simpa using find?_some hfind
      exact mem_map.mpr ⟨task, mem_of_find?_eq_some hfind, hname⟩
    have hlength := (subperm_of_subset hnodup hknown).length_le
    rw [names, length_map] at hlength
    omega
  | succ fuel ih =>
    rw [visit, wp_bind, wp_get]
    by_cases hdone : name ∈ s.done
    · rw [if_pos hdone]
      exact ⟨hs, rfl, Subset.refl _, by simpa, fun _ => .inl⟩
    by_cases hopen : name ∈ s.visiting
    · rw [if_neg hdone, if_pos hopen]
      exact ⟨nofun, name, .refl, .inr (hpath name hopen)⟩
    rw [if_neg hdone, if_neg hopen]
    cases hfind : find tasks name with
    | none => exact ⟨nofun, name, .refl, .inl hfind⟩
    | some task =>
      have hstart : Visited tasks [] { s with visiting := s.visiting ++ [name] }
          { s with visiting := s.visiting ++ [name] } := by
        refine ⟨⟨hs.sorted, hs.done, ?_⟩, rfl, Subset.refl _, nil_subset _, fun _ => .inl⟩
        exact forall_mem_append.mpr ⟨hs.apart, forall_mem_singleton.mpr hdone⟩
      refine wp_bind.mpr (wp_seq (Traversal.wp_forM (R := fun l => Visited tasks l _) ?_ hstart) ?_)
      · intro dep hmem seen s1 hs1
        have hdep : Dep tasks name dep := ⟨task, hfind, hmem⟩
        have hvisiting : s1.visiting = s.visiting ++ [name] := hs1.visiting
        refine wp_weaken (ih hs1.toOrderly ?_ ?_ ?_) (fun _ s2 hs2 => hs1.trans hs2) ?_
        · rw [hvisiting]
          exact hnodup.append (nodup_singleton name) (by simpa using hopen)
        · rw [hvisiting]
          exact forall_mem_append.mpr
            ⟨fun v hv => (hpath v hv).tail hdep, forall_mem_singleton.mpr (.single hdep)⟩
        · rw [hvisiting, length_append, length_singleton]
          omega
        · rintro e - ⟨he, b, hreach, hfault⟩
          exact ⟨he, b, hreach.head hdep, hfault⟩
      · exact fun _ s1 hs1 => hs1.finish hfind hopen

/-- **The order of tasks is topological.** The recursion ends. It fails exactly if the target reaches a
task that is unknown or on a cycle, and else the order has what the target reaches, each task once and
after what it depends on, the target last. -/
theorem task_order_topological (tasks : List TaskDef) (target : String) :
    taskOrder tasks target ≠ .error none ∧
    ((∃ e, taskOrder tasks target = .error e) ↔ ∃ a, Reaches tasks target a ∧ Faulty tasks a) ∧
    ∀ out, taskOrder tasks target = .ok out → Sorted tasks out ∧
      (∀ a, a ∈ names out ↔ Reaches tasks target a) ∧
      ∃ before task, out = before ++ [task] ∧ task.name = target := by
  have hvisit := @wp_visit tasks target ⟨[], [], []⟩ (tasks.length + 1)
    ⟨by simp [Sorted], rfl, by simp⟩ nodup_nil (by simp) (by simp)
  rw [taskOrder]
  cases hresult : visit tasks (tasks.length + 1) target ⟨[], [], []⟩ with
  | ok _ s =>
    have h := wp_ok hvisit hresult
    have htarget : target ∈ names s.out := h.done ▸ h.all mem_cons_self
    have hreached : ∀ a ∈ names s.out, Reaches tasks target a := by simpa [h.done] using h.reached
    refine ⟨nofun, iff_of_false nofun ?_, ?_⟩
    · rintro ⟨a, ha, hfault⟩
      exact h.sorted.not_faulty (h.sorted.reaches htarget ha) hfault
    · rintro _ ⟨⟩
      exact ⟨h.sorted, fun a => ⟨hreached a, h.sorted.reaches htarget⟩, h.sorted.last htarget hreached⟩
  | error e =>
    obtain ⟨he, hfault⟩ := wp_error hvisit hresult
    exact ⟨fun h => he (Except.error.inj h), iff_of_true ⟨e, rfl⟩ hfault, nofun⟩

end Visits

end Clojurust.Project
