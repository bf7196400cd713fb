import Mathlib.Data.Finset.Card

/-! # Hash sets

`safeHashSet` and `hashSet` of `util/set.go`, with the finite set each stands for (`elems`); a map
is the list of its keys without repeats. -/
namespace Matcha.Util

/-- `hashSet`: the keys of its map. -/
structure HashSet (α : Type) where
  setMap : List α
  nodup : setMap.Nodup

/-- `safeHashSet`: the keys of its `sync.Map` and the counter `elements`; between calls its
`mutex` is free. -/
structure SafeHashSet (α : Type) where
  setMap : List α
  nodup : setMap.Nodup
  elements : Int

inductive GoSet (α : Type) where
  | safe (s : SafeHashSet α)
  | hash (s : HashSet α)

/-- The argument of `Union` and `Intersection`: nil, the receiver itself, or another set. -/
inductive SetArg (α : Type) where
  | nil
  | self
  | other (t : GoSet α)

variable {α : Type} [DecidableEq α]

def GoSet.range : GoSet α → List α
  | .safe s => s.setMap
  | .hash s => s.setMap

def GoSet.elems (t : GoSet α) : Finset α := t.range.toFinset

def SetArg.elems (self : Finset α) : SetArg α → Finset α
  | .nil => ∅
  | .self => self
  | .other t => t.elems

inductive Op (α : Type) where
  | add (x : α)
  | remove (x : α)
  | clear

def Op.apply : Op α → Finset α → Finset α
  | .add x, A => insert x A
  | .remove x, A => A.erase x
  | .clear, _ => ∅

def Op.runAll : List (Op α) → Finset α → Finset α
  | [], A => A
  | op :: ops, A => runAll ops (op.apply A)

def Op.dropped : Op α → Finset α → Nat
  | .clear, A => A.card
  | _, _ => 0

/-- The members the `Clear` calls of a history throw away. -/
def Op.cleared : List (Op α) → Finset α → Nat
  | [], _ => 0
  | op :: ops, A => op.dropped A + cleared ops (op.apply A)

theorem elems_foldl {σ : Type} (elems : σ → Finset α) (f : σ → α → σ) (p : α → Prop)
    [DecidablePred p] (hf : ∀ n e, elems (f n e) = if p e then insert e (elems n) else elems n) :
    ∀ (l : List α) (n : σ), elems (l.foldl f n) = elems n ∪ l.toFinset.filter p
  | [], n => by simp
  | e :: l, n => by
    rw [List.foldl_cons, elems_foldl elems f p hf l, hf, List.toFinset_cons, Finset.filter_insert]
    split <;> simp

def newHashSet : HashSet α := ⟨[], .nil⟩

namespace HashSet

variable (s : HashSet α) (x : α)

def elems : Finset α := s.setMap.toFinset

/-- `Add`: `checkInit`, then the key is stored unless it is there. -/
def add : HashSet α := ⟨s.setMap.insert x, s.nodup.insert⟩

def remove : HashSet α := ⟨s.setMap.erase x, s.nodup.erase x⟩

def contains : Bool := x ∈ s.setMap

def isEmpty : Bool := s.setMap.length = 0

def size : Nat := s.setMap.length

def clear (_ : HashSet α) : HashSet α := newHashSet

/-- What the argument's `Range` visits: the receiver's own map for itself. -/
def argRange : SetArg α → List α
  | .nil => []
  | .self => s.setMap
  | .other t => t.range

/-- `Union`: a new set with the receiver's keys, then each key the argument ranges over that
the new set does not contain. -/
def union (arg : SetArg α) : HashSet α :=
  (s.argRange arg).foldl (fun n e => if n.contains e then n else n.add e)
    (s.setMap.foldl add newHashSet)

/-- `Intersection`: a new set with each key the argument ranges over that the receiver holds. -/
def intersection (arg : SetArg α) : HashSet α :=
  (s.argRange arg).foldl (fun n e => if e ∈ s.setMap then n.add e else n) newHashSet

def exec : Op α → HashSet α
  | .add x => s.add x
  | .remove x => s.remove x
  | .clear => s.clear

def run : List (Op α) → HashSet α → HashSet α
  | [], s => s
  | op :: ops, s => run ops (s.exec op)

@[simp] theorem elems_newHashSet : (newHashSet : HashSet α).elems = ∅ := rfl

@[simp] theorem elems_add : (s.add x).elems = insert x s.elems := by
  ext; simp [elems, add, List.mem_insert_iff]

@[simp] theorem elems_remove : (s.remove x).elems = s.elems.erase x := by
  ext; simp [elems, remove, s.nodup.mem_erase_iff]

theorem contains_eq : s.contains x = decide (x ∈ s.elems) := by simp [contains, elems]

theorem size_eq_card : s.size = s.elems.card := (List.toFinset_card_of_nodup s.nodup).symm

theorem isEmpty_eq : s.isEmpty = decide (s.elems = ∅) := by
  simp [isEmpty, elems, List.toFinset_eq_empty_iff]

theorem elems_exec (op : Op α) : (s.exec op).elems = op.apply s.elems := by
  cases op <;> simp [exec, Op.apply, clear]

theorem elems_run : ∀ (ops : List (Op α)) (s : HashSet α), (run ops s).elems = Op.runAll ops s.elems
  | [], _ => rfl
  | op :: ops, s => by rw [run, elems_run ops, elems_exec]; rfl

theorem elems_argRange (arg : SetArg α) : (s.argRange arg).toFinset = arg.elems s.elems := by
  cases arg <;> rfl

theorem elems_union (arg : SetArg α) : (s.union arg).elems = s.elems ∪ arg.elems s.elems := by
  rw [union, elems_foldl (@elems α _) _ (fun _ => True) (fun n e => ?_),
    elems_foldl (@elems α _) add (fun _ => True) (fun n e => by simp), elems_argRange]
  · simp [elems, newHashSet]
  · by_cases h : e ∈ n.elems <;> simp [contains_eq, h]

theorem elems_intersection (arg : SetArg α) :
    (s.intersection arg).elems = arg.elems s.elems ∩ s.elems := by
  rw [intersection, elems_foldl (@elems α _) _ (· ∈ s.setMap) (fun n e => by split <;> simp),
    elems_newHashSet, Finset.empty_union, elems_argRange]
  ext; simp [elems]

end HashSet

def newSafeHashSet : SafeHashSet α := ⟨[], .nil, 0⟩

namespace SafeHashSet

variable (s : SafeHashSet α) (x : α)

def elems : Finset α := s.setMap.toFinset

/-- `Add` under the write lock: a key that is not there is stored and counted. -/
def add : SafeHashSet α :=
  if x ∈ s.setMap then s else ⟨s.setMap.insert x, s.nodup.insert, s.elements + 1⟩

def remove : SafeHashSet α :=
  if x ∈ s.setMap then ⟨s.setMap.erase x, s.nodup.erase x, s.elements - 1⟩ else s

def contains : Bool := x ∈ s.setMap

def isEmpty : Bool := s.elements = 0

def size : Int := s.elements

/-- `Clear`: a new `sync.Map`; `elements` is left as it was. -/
def clear : SafeHashSet α := ⟨[], .nil, s.elements⟩

/-- `Union` under the receiver's write lock: the argument's `Range` takes its read lock, which
for the receiver itself never comes (`none`). -/
def union : SetArg α → Option (SafeHashSet α)
  | .nil => some (s.setMap.foldl add newSafeHashSet)
  | .self => none
  | .other t => some (t.range.foldl (fun n e => if n.contains e then n else n.add e)
      (s.setMap.foldl add newSafeHashSet))

def intersection : SetArg α → Option (SafeHashSet α)
  | .nil => some newSafeHashSet
  | .self => none
  | .other t => some (t.range.foldl (fun n e => if e ∈ s.setMap then n.add e else n)
      newSafeHashSet)

def exec : Op α → SafeHashSet α
  | .add x => s.add x
  | .remove x => s.remove x
  | .clear => s.clear

def run : List (Op α) → SafeHashSet α → SafeHashSet α
  | [], s => s
  | op :: ops, s => run ops (s.exec op)

/-- How far `Size` is above the number of members. -/
def excess : Int := s.size - s.elems.card

@[simp] theorem elems_newSafeHashSet : (newSafeHashSet : SafeHashSet α).elems = ∅ := rfl

@[simp] theorem elems_add : (s.add x).elems = insert x s.elems := by
  unfold add; split
  · exact (Finset.insert_eq_of_mem (List.mem_toFinset.mpr ‹_›)).symm
  · ext; simp [elems, List.mem_insert_iff]

@[simp] theorem elems_remove : (s.remove x).elems = s.elems.erase x := by
  unfold remove; split
  · ext; simp [elems, s.nodup.mem_erase_iff]
  · ext y; by_cases h : y = x <;> simp_all [elems]

theorem contains_eq : s.contains x = decide (x ∈ s.elems) := by simp [contains, elems]

theorem elems_exec (op : Op α) : (s.exec op).elems = op.apply s.elems := by
  cases op with
  | add y => simp [exec, Op.apply]
  | remove y => simp [exec, Op.apply]
  | clear => rfl

theorem elems_run : ∀ (ops : List (Op α)) (s : SafeHashSet α), (run ops s).elems = Op.runAll ops s.elems
  | [], _ => rfl
  | op :: ops, s => by rw [run, elems_run ops, elems_exec]; rfl

theorem size_add : (s.add x).size = s.size + if x ∈ s.elems then 0 else 1 := by
  by_cases h : x ∈ s.setMap <;> simp [add, size, elems, h]

theorem size_remove : (s.remove x).size = s.size - if x ∈ s.elems then 1 else 0 := by
  by_cases h : x ∈ s.setMap <;> simp [remove, size, elems, h]

@[simp] theorem excess_newSafeHashSet : (newSafeHashSet : SafeHashSet α).excess = 0 := rfl

/-- `Add` and `Remove` count what they change; `Clear` forgets the members, not their count. -/
theorem excess_exec (op : Op α) : (s.exec op).excess = s.excess + op.dropped s.elems := by
  cases op with
  | add y =>
    by_cases h : y ∈ s.elems
    · simp [exec, excess, size_add, h, Finset.insert_eq_of_mem, Op.dropped]
    · simp only [exec, excess, size_add, elems_add, h, Finset.card_insert_of_not_mem h, Op.dropped,
        ↓reduceIte]
      omega
  | remove y =>
    by_cases h : y ∈ s.elems
    · have := Finset.card_erase_add_one h
      simp only [exec, excess, size_remove, elems_remove, h, Op.dropped, ↓reduceIte]
      omega
    · simp [exec, excess, size_remove, h, Finset.erase_eq_of_not_mem, Op.dropped]
  | clear => simp [exec, excess, size, clear, elems, Op.dropped]

theorem excess_run : ∀ (ops : List (Op α)) (s : SafeHashSet α),
    (run ops s).excess = s.excess + Op.cleared ops s.elems
  | [], _ => by simp [run, Op.cleared]
  | op :: ops, s => by
    rw [run, excess_run ops, excess_exec, elems_exec, Op.cleared]
    omega

theorem excess_foldl {f : SafeHashSet α → α → SafeHashSet α}
    (hf : ∀ n e, f n e = n ∨ f n e = n.add e) :
    ∀ (l : List α) (n : SafeHashSet α), n.excess = 0 → (l.foldl f n).excess = 0
  | [], _, h => h
  | e :: l, n, h => excess_foldl hf l _ (by
      rcases hf n e with he | he <;> rw [he]
      · exact h
      · simpa [exec, Op.dropped, h] using n.excess_exec (.add e))

end SafeHashSet

/-- `hashSet` is the finite set after every history of `Add`, `Remove` and `Clear`, and its
`Union` and `Intersection` return the union and intersection with any argument. `safeHashSet`
has the right members and returns the right sets for any other argument, but `Size` counts
every member a `Clear` threw away as well, `IsEmpty` is false once anything was cleared, and
`Union` and `Intersection` of the receiver with itself block. -/
theorem hashSet_implements_set_safeHashSet_miscounts (ops : List (Op α)) (x : α)
    (arg : SetArg α) (t : GoSet α) :
    let h := HashSet.run ops newHashSet
    let s := SafeHashSet.run ops newSafeHashSet
    let A := Op.runAll ops ∅
    (h.contains x = decide (x ∈ A) ∧ h.size = A.card ∧ h.isEmpty = decide (A = ∅) ∧
      (h.union arg).elems = A ∪ arg.elems A ∧ (h.intersection arg).elems = arg.elems A ∩ A) ∧
    (s.contains x = decide (x ∈ A) ∧ s.size = A.card + Op.cleared ops ∅ ∧
      s.isEmpty = decide (A.card + Op.cleared ops ∅ = 0) ∧
      s.union .self = none ∧ s.intersection .self = none ∧
      (∃ u, s.union (.other t) = some u ∧ u.elems = A ∪ t.elems ∧ u.size = (A ∪ t.elems).card) ∧
      ∃ u, s.intersection (.other t) = some u ∧ u.elems = t.elems ∩ A ∧
        u.size = (t.elems ∩ A).card) := by
  intro h s A
  have hh : h.elems = A := HashSet.elems_run ops newHashSet
  have hs : s.elems = A := SafeHashSet.elems_run ops newSafeHashSet
  have hx : s.excess = Op.cleared ops ∅ := by
    simpa using SafeHashSet.excess_run ops newSafeHashSet
  have hsize : s.size = A.card + Op.cleared ops ∅ := by
    rw [← hs, ← hx, SafeHashSet.excess]; omega
  have hcount : ∀ u : SafeHashSet α, u.excess = 0 → u.size = u.elems.card := fun u hu => by
    rw [SafeHashSet.excess] at hu; omega
  have hadd := elems_foldl (@SafeHashSet.elems α _) SafeHashSet.add (fun _ => True)
    fun n e => by simp
  have hsep : (s.setMap.foldl SafeHashSet.add newSafeHashSet).excess = 0 :=
    SafeHashSet.excess_foldl (fun n e => .inr rfl) _ _ SafeHashSet.excess_newSafeHashSet
  refine ⟨⟨?_, ?_, ?_, ?_, ?_⟩, ⟨?_, hsize, ?_, rfl, rfl, ?_, ?_⟩⟩
  · rw [h.contains_eq, hh]
  · rw [h.size_eq_card, hh]
  · rw [h.isEmpty_eq, hh]
  · rw [h.elems_union, hh]
  · rw [h.elems_intersection, hh]
  · rw [s.contains_eq, hs]
  · rw [SafeHashSet.isEmpty, show s.elements = s.size from rfl, hsize, decide_eq_decide]
    constructor <;> intro h <;> omega
  · have he : (t.range.foldl (fun n e => if n.contains e then n else n.add e)
        (s.setMap.foldl SafeHashSet.add newSafeHashSet)).elems = A ∪ t.elems := by
      rw [elems_foldl (@SafeHashSet.elems α _) _ (fun _ => True) (fun n e => ?_), hadd]
      · simp [← hs, SafeHashSet.elems, GoSet.elems, newSafeHashSet]
      · by_cases he : e ∈ n.elems <;> simp [SafeHashSet.contains_eq, he]
    refine ⟨_, rfl, he, ?_⟩
    rw [hcount _ (SafeHashSet.excess_foldl (fun n e => ?_) _ _ hsep), he]
    by_cases he : n.contains e <;> simp [he]
  · have he : (t.range.foldl (fun n e => if e ∈ s.setMap then n.add e else n)
        newSafeHashSet).elems = t.elems ∩ A := by
      rw [elems_foldl (@SafeHashSet.elems α _) _ (· ∈ s.setMap) (fun n e => by split <;> simp)]
      ext; simp [← hs, SafeHashSet.elems, GoSet.elems, newSafeHashSet]
    refine ⟨_, rfl, he, ?_⟩
    rw [hcount _ (SafeHashSet.excess_foldl (fun n e => ?_) _ _ SafeHashSet.excess_newSafeHashSet),
      he]
    by_cases he : e ∈ s.setMap <;> simp [he]

example : (SafeHashSet.run [.add 1, .clear] newSafeHashSet).size = 1 ∧
    (SafeHashSet.run [.add 1, .clear] newSafeHashSet).contains 1 = false := by decide

end Matcha.Util
