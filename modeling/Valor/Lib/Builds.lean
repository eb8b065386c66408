import Mathlib.Data.List.Induction
import Mathlib.Data.Set.Basic
import Mathlib.Logic.Function.Basic

/-! Jobs that write into a store what they have read off it. Where no job reads what one may
write, a build can be made in any order, and again, just if no two of its jobs write different
things to one place. -/
namespace Builds

variable {K V J : Type*} [DecidableEq K]

abbrev Store (K V : Type*) := K → Option V

/-- The last that is written to a place. -/
def written : List (K × V) → K → Option V
  | [], _ => none
  | w :: ws, k => (written ws k).or (if w.1 = k then some w.2 else none)

def Store.write (st : Store K V) (ws : List (K × V)) : Store K V :=
  ws.foldl (fun st w => Function.update st w.1 (some w.2)) st

/-- What each job writes, for what is in the store. -/
abbrev Jobs (J K V : Type*) := J → Store K V → List (K × V)

def build (job : Jobs J K V) (order : List J) (st : Store K V) : Store K V :=
  order.foldl (fun st j => st.write (job j st)) st

def AgreeOff (out : Set K) (st st' : Store K V) : Prop := ∀ k, k ∉ out → st k = st' k

/-- Only outputs are written, and no output is read. -/
structure Layered (job : Jobs J K V) (out : Set K) (js : Set J) : Prop where
  writes : ∀ j ∈ js, ∀ st, ∀ w ∈ job j st, w.1 ∈ out
  reads : ∀ j ∈ js, ∀ st st', AgreeOff out st st' → job j st = job j st'

/-- The same jobs, in any order and any number of times. -/
def AnyOrder (job : Jobs J K V) (js : Set J) (st : Store K V) : Prop :=
  ∀ order order' : List J, (∀ j ∈ order, j ∈ js) → (∀ j, j ∈ order ↔ j ∈ order') →
    build job order st = build job order' st

variable {job : Jobs J K V} {out : Set K} {js : Set J} {st : Store K V} {ws ws' : List (K × V)}
  {order : List J} {k : K} {v : V}

theorem written_append (ws ws' : List (K × V)) (k : K) :
    written (ws ++ ws') k = (written ws' k).or (written ws k) := by
  induction ws with
  | nil => simp only [List.nil_append, written, Option.or_none]
  | cons w ws ih => simp only [List.cons_append, written, ih, Option.or_assoc]

theorem write_append (st : Store K V) (ws ws' : List (K × V)) :
    st.write (ws ++ ws') = (st.write ws).write ws' :=
  List.foldl_append

theorem write_apply (st : Store K V) (ws : List (K × V)) (k : K) :
    st.write ws k = (written ws k).or (st k) := by
  induction ws generalizing st with
  | nil => rfl
  | cons w ws ih =>
    have later : st.write (w :: ws) = Store.write (Function.update st w.1 (some w.2)) ws := rfl
    rw [later, ih, written, Option.or_assoc]
    congr 1
    by_cases h : w.1 = k
    · subst h
      simp
    · simp [h, Ne.symm h]

theorem written_mem (h : written ws k = some v) : (k, v) ∈ ws := by
  induction ws with
  | nil => cases h
  | cons w ws ih =>
    rw [written] at h
    rcases Option.or_eq_some_iff.mp h with later | ⟨_, here⟩
    · exact List.mem_cons_of_mem _ (ih later)
    · split at here
      · rename_i same
        cases here
        subst same
        exact List.mem_cons_self
      · cases here

theorem written_of_mem (once : (ws.map Prod.fst).Nodup) (mem : (k, v) ∈ ws) :
    written ws k = some v := by
  induction ws with
  | nil => cases mem
  | cons w ws ih =>
    rw [List.map_cons, List.nodup_cons] at once
    rw [written]
    rcases List.mem_cons.mp mem with rfl | mem
    · have last : written ws k = none := by
        cases h : written ws k with
        | none => rfl
        | some v' => exact absurd (List.mem_map_of_mem (f := Prod.fst) (written_mem h)) once.1
      rw [last, Option.none_or, if_pos rfl]
    · rw [ih once.2 mem, Option.some_or]

theorem written_ne_none (mem : (k, v) ∈ ws) : written ws k ≠ none := by
  induction ws with
  | nil => cases mem
  | cons w ws ih =>
    rw [written, Ne, Option.or_eq_none_iff, not_and_or]
    rcases List.mem_cons.mp mem with rfl | mem
    · right
      rw [if_pos rfl]
      nofun
    · exact .inl (ih mem)

theorem agreeOff_write (only : ∀ w ∈ ws, w.1 ∈ out) : AgreeOff out st (st.write ws) := by
  intro k outside
  rw [write_apply]
  cases h : written ws k with
  | none => rfl
  | some v => exact absurd (only _ (written_mem h)) outside

/-- Every job finds what the first finds. -/
theorem build_eq (layered : Layered job out js) (listed : ∀ j ∈ order, j ∈ js) :
    build job order st = st.write (order.flatMap fun j => job j st) := by
  induction order using List.reverseRecOn with
  | nil => rfl
  | append_singleton order j ih =>
    have before := ih fun j' mem => listed j' (List.mem_append_left _ mem)
    have mine : j ∈ js := listed j (by simp)
    have only : ∀ w ∈ order.flatMap fun j => job j st, w.1 ∈ out := by
      intro w mem
      obtain ⟨j', mem', here⟩ := List.mem_flatMap.mp mem
      exact layered.writes j' (listed j' (List.mem_append_left _ mem')) st w here
    have same : job j (build job order st) = job j st := by
      rw [before]
      exact (layered.reads j mine _ _ (agreeOff_write only)).symm
    calc build job (order ++ [j]) st
      _ = (build job order st).write (job j (build job order st)) := by
        simp only [build, List.foldl_append, List.foldl_cons, List.foldl_nil]
      _ = (st.write (order.flatMap fun j => job j st)).write (job j st) := by rw [same, before]
      _ = st.write ((order ++ [j]).flatMap fun j => job j st) := by
        rw [List.flatMap_append, write_append, List.flatMap_singleton]

theorem written_flatMap_none (f : J → List (K × V)) (silent : ∀ j ∈ order, written (f j) k = none) :
    written (order.flatMap f) k = none := by
  induction order with
  | nil => rfl
  | cons j order ih =>
    rw [List.flatMap_cons, written_append, silent j List.mem_cons_self,
      ih fun j' mem => silent j' (List.mem_cons_of_mem _ mem)]
    rfl

/-- Where all that write to a place write the same, that is there in the end. -/
theorem written_flatMap_some (f : J → List (K × V))
    (agree : ∀ j ∈ order, ∀ v', written (f j) k = some v' → v' = v)
    (some' : ∃ j ∈ order, written (f j) k = some v) : written (order.flatMap f) k = some v := by
  induction order with
  | nil => simp at some'
  | cons j order ih =>
    rw [List.flatMap_cons, written_append]
    by_cases later : ∃ j' ∈ order, written (f j') k = some v
    · rw [ih (fun j' mem => agree j' (List.mem_cons_of_mem _ mem)) later]
      rfl
    · have empty : written (order.flatMap f) k = none := by
        apply written_flatMap_none
        intro j' mem
        cases h : written (f j') k with
        | none => rfl
        | some v' =>
          have same := agree j' (List.mem_cons_of_mem _ mem) v' h
          exact absurd ⟨j', mem, same ▸ h⟩ later
      obtain ⟨j', mem, here⟩ := some'
      rcases List.mem_cons.mp mem with rfl | mem
      · rw [empty, here]
        rfl
      · exact absurd ⟨j', mem, here⟩ later

theorem anyOrder_iff (layered : Layered job out js) (st : Store K V) :
    AnyOrder job js st ↔ ∀ j ∈ js, ∀ j' ∈ js, ∀ k v v', written (job j st) k = some v →
      written (job j' st) k = some v' → v = v' := by
  constructor
  · intro any j mem j' mem' k v v' here here'
    -- Of two jobs the later has the last word.
    have listed : ∀ i ∈ [j, j'], i ∈ js := by simp [mem, mem']
    have listed' : ∀ i ∈ [j', j], i ∈ js := by simp [mem, mem']
    have same := congrFun (any [j, j'] [j', j] listed fun i => by simp [or_comm]) k
    rw [build_eq layered listed, build_eq layered listed', write_apply, write_apply] at same
    simp only [List.flatMap_cons, List.flatMap_nil, List.append_nil, written_append, here, here',
      Option.some_or, Option.some.injEq] at same
    exact same.symm
  · intro agree order order' listed members
    have listed' : ∀ j ∈ order', j ∈ js := fun j mem => listed j ((members j).mpr mem)
    rw [build_eq layered listed, build_eq layered listed']
    funext k
    rw [write_apply, write_apply]
    congr 1
    by_cases some' : ∃ j ∈ order, ∃ v, written (job j st) k = some v
    · obtain ⟨j, mem, v, here⟩ := some'
      rw [written_flatMap_some _ _ ⟨j, mem, here⟩,
        written_flatMap_some _ _ ⟨j, (members j).mp mem, here⟩]
      · intro j' mem' v' here'
        exact agree j' (listed' j' mem') j (listed j mem) k v' v here' here
      · intro j' mem' v' here'
        exact agree j' (listed j' mem') j (listed j mem) k v' v here' here
    · have nobody : ∀ j ∈ order, written (job j st) k = none := by
        intro j mem
        cases h : written (job j st) k with
        | none => rfl
        | some v => exact absurd ⟨j, mem, v, h⟩ some'
      rw [written_flatMap_none _ nobody,
        written_flatMap_none _ fun j mem => nobody j ((members j).mpr mem)]

end Builds
