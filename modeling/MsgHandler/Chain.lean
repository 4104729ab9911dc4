/-
MsgHandler/Chain.lean

Intrusive singly linked lists.  The nodes are elements of an arbitrary type,
and the links are one function `next`, shared by every list that threads
through the same field.

`Seg next p l q` says that following `next` from `p` visits exactly `l` and
then arrives at `q`; a *chain* is a segment that ends at `none`.  The two
facts everything else rests on are that a segment is not affected by writing
a link outside it (`Seg.update`) and that a chain never visits a node twice
(`Chain.nodup`): it would never end.

`Links` is the usual pair of a first and a last pointer, and `Links.attach`
the usual way to hang a chain behind it,

    if (tail) tail->next = v; else head = v;
    tail = last;

which appends (`Links.Rep.attach`).
-/
import Mathlib

namespace Xkim

variable {α : Type*}

/-! ### Segments -/

/-- Following `next` from `p` visits exactly `l` and arrives at `q`. -/
def Seg (next : α → Option α) : Option α → List α → Option α → Prop
  | p, [], q => p = q
  | p, a :: l, q => p = some a ∧ Seg next (next a) l q

/-- A segment that ends. -/
def Chain (next : α → Option α) (p : Option α) (l : List α) : Prop := Seg next p l none

/-- A segment can be checked node by node. -/
instance Seg.decidable [DecidableEq α] (next : α → Option α) :
    ∀ p l q, Decidable (Seg next p l q)
  | p, [], q => inferInstanceAs (Decidable (p = q))
  | p, a :: l, q =>
    have := Seg.decidable next (next a) l q
    inferInstanceAs (Decidable (p = some a ∧ Seg next (next a) l q))

instance Chain.decidable [DecidableEq α] (next : α → Option α) (p : Option α)
    (l : List α) : Decidable (Chain next p l) :=
  inferInstanceAs (Decidable (Seg next p l none))

variable {next : α → Option α} {p q s : Option α} {l l₁ l₂ : List α}

theorem Seg.append : Seg next p l₁ q → Seg next q l₂ s → Seg next p (l₁ ++ l₂) s := by
  induction l₁ generalizing p with
  | nil =>
    rintro rfl h₂
    exact h₂
  | cons a l₁ ih =>
    rintro ⟨rfl, h₁⟩ h₂
    exact ⟨rfl, ih h₁ h₂⟩

theorem Seg.split (h : Seg next p (l₁ ++ l₂) s) :
    ∃ q, Seg next p l₁ q ∧ Seg next q l₂ s := by
  induction l₁ generalizing p with
  | nil => exact ⟨p, rfl, h⟩
  | cons a l₁ ih =>
    obtain ⟨rfl, h'⟩ := h
    obtain ⟨q, h₁, h₂⟩ := ih h'
    exact ⟨q, ⟨rfl, h₁⟩, h₂⟩

/-- The start of a segment in the middle of which `a` stands. -/
theorem Seg.at {a : α} (h : Seg next p (l₁ ++ a :: l₂) s) : Seg next (some a) (a :: l₂) s := by
  obtain ⟨q, -, rfl, h₂⟩ := h.split
  exact ⟨rfl, h₂⟩

/-- Writing a link outside a segment does not change it. -/
theorem Seg.update [DecidableEq α] {a : α} {v : Option α} (ha : a ∉ l)
    (h : Seg next p l q) : Seg (Function.update next a v) p l q := by
  induction l generalizing p with
  | nil => exact h
  | cons b l ih =>
    obtain ⟨rfl, h'⟩ := h
    have hb : b ≠ a := fun e => ha (e ▸ List.mem_cons_self)
    refine ⟨rfl, ?_⟩
    rw [Function.update_of_ne hb]
    exact ih (fun hl => ha (List.mem_cons_of_mem _ hl)) h'

theorem Seg.congr {next' : α → Option α} (h : Seg next p l q)
    (he : ∀ a ∈ l, next' a = next a) : Seg next' p l q := by
  induction l generalizing p with
  | nil => exact h
  | cons a l ih =>
    obtain ⟨rfl, h'⟩ := h
    refine ⟨rfl, ?_⟩
    rw [he a List.mem_cons_self]
    exact ih h' fun b hb => he b (List.mem_cons_of_mem _ hb)

/-- A chain is determined by its start. -/
theorem Chain.unique (h₁ : Chain next p l₁) (h₂ : Chain next p l₂) : l₁ = l₂ := by
  induction l₁ generalizing p l₂ with
  | nil =>
    cases l₂ with
    | nil => rfl
    | cons b l₂ =>
      have hp : p = none := h₁
      obtain ⟨hb, -⟩ := h₂
      rw [hp] at hb
      cases hb
  | cons a l₁ ih =>
    obtain ⟨rfl, h₁⟩ := h₁
    cases l₂ with
    | nil => cases h₂
    | cons b l₂ =>
      obtain ⟨hb, h₂⟩ := h₂
      obtain rfl := Option.some.inj hb
      rw [ih h₁ h₂]

/-- A chain does not visit a node twice: the two tails would be equal. -/
theorem Chain.nodup (h : Chain next p l) : l.Nodup := by
  induction l generalizing p with
  | nil => exact List.nodup_nil
  | cons a l ih =>
    obtain ⟨rfl, h'⟩ := h
    refine List.nodup_cons.mpr ⟨?_, ih h'⟩
    intro ha
    obtain ⟨l₁, l₂, rfl⟩ := List.append_of_mem ha
    have hlong : Chain next (some a) (a :: (l₁ ++ a :: l₂)) := ⟨rfl, h'⟩
    have hlen := congrArg List.length (Chain.unique hlong (Seg.at h'))
    simp only [List.length_cons, List.length_append] at hlen
    omega

theorem Chain.nil_iff : Chain next p [] ↔ p = none := Iff.rfl

theorem Chain.head_eq (h : Chain next p l) : p = l.head? := by
  cases l with
  | nil => exact h
  | cons a l => exact h.1

/-- Two chains that share no node can be joined at the end of the first. -/
theorem Chain.link [DecidableEq α] {t : α} (h₁ : Chain next p (l₁ ++ [t]))
    (h₂ : Chain next q l₂) (hd : ∀ a ∈ l₁ ++ [t], a ∉ l₂) :
    Chain (Function.update next t q) p (l₁ ++ [t] ++ l₂) := by
  have hnd := List.nodup_append.mp (Chain.nodup h₁)
  have ht₁ : t ∉ l₁ := fun h => hnd.2.2 t h t List.mem_cons_self rfl
  have ht₂ : t ∉ l₂ := hd t (by simp)
  obtain ⟨s, hs₁, rfl, -⟩ := Seg.split h₁
  have hlast : Seg (Function.update next t q) (some t) [t] q := by
    refine ⟨rfl, ?_⟩
    rw [Function.update_self]
    rfl
  exact ((hs₁.update ht₁).append hlast).append (h₂.update ht₂)

/-- A chain that is cut behind `a`. -/
theorem Chain.cut [DecidableEq α] {a : α} (h : Chain next p (l₁ ++ a :: l₂)) :
    Chain (Function.update next a none) p (l₁ ++ [a]) ∧
      Chain (Function.update next a none) (next a) l₂ := by
  have hnodup := List.nodup_append.mp (Chain.nodup h)
  obtain ⟨q, hfirst, ha, hrest⟩ := Seg.split h
  constructor
  · have hnot : a ∉ l₁ := fun hmem => hnodup.2.2 a hmem a List.mem_cons_self rfl
    refine Seg.append (Seg.update hnot hfirst) ⟨ha, ?_⟩
    exact Function.update_self _ _ _
  · exact Seg.update (List.nodup_cons.mp hnodup.2.1).1 hrest

/-! ### Walking -/

/-- A loop `while (--count) item = item->next;` arrives at the node that stands
as many places further down. -/
theorem Chain.advance_eq {f : ℕ → α → Option α} {first a : α} (hzero : ∀ v, f 0 v = some v)
    (hsucc : ∀ n v, f (n + 1) v = (next v).bind (f n))
    (h : Chain next (some first) (l₁ ++ a :: l₂)) : f l₁.length first = some a := by
  induction l₁ generalizing first with
  | nil => exact (hzero first).trans h.1
  | cons b l₁ ih =>
    obtain ⟨hb, hrest⟩ := h
    obtain rfl := Option.some.inj hb
    rw [List.length_cons, hsucc]
    have hhead := Chain.head_eq hrest
    rcases hnext : next first with - | c
    · rw [hnext] at hhead
      cases l₁ <;> cases hhead
    · rw [hnext] at hrest
      exact ih hrest

/-- The nodes visited in at most `n` steps. -/
def walk (next : α → Option α) : ℕ → Option α → List α
  | 0, _ => []
  | _ + 1, none => []
  | n + 1, some a => a :: walk next n (next a)

theorem Chain.walk_eq {n : ℕ} (h : Chain next p l) (hn : l.length ≤ n) :
    walk next n p = l := by
  induction l generalizing p n with
  | nil =>
    rw [Chain.nil_iff.mp h]
    cases n <;> rfl
  | cons a l ih =>
    obtain ⟨rfl, h'⟩ := h
    obtain ⟨n, rfl⟩ : ∃ k, n = k + 1 := ⟨n - 1, by rw [List.length_cons] at hn; omega⟩
    rw [walk, ih h' (by rw [List.length_cons] at hn; omega)]

/-- `while (v->next) v = v->next;`, counting the nodes seen; at most `n`
rounds. -/
def lastNode (next : α → Option α) : ℕ → α → α × ℕ
  | 0, v => (v, 1)
  | n + 1, v =>
    match next v with
    | none => (v, 1)
    | some w => ((lastNode next n w).1, (lastNode next n w).2 + 1)

theorem Chain.lastNode_eq {v : α} {n : ℕ} (h : Chain next (some v) (v :: l))
    (hn : l.length ≤ n) :
    lastNode next n v = ((v :: l).getLast (List.cons_ne_nil v l), l.length + 1) := by
  induction l generalizing v n with
  | nil =>
    have hv : next v = none := h.2
    cases n with
    | zero => rfl
    | succ n => simp [lastNode, hv]
  | cons w l ih =>
    obtain ⟨-, hw, h'⟩ := h
    obtain ⟨n, rfl⟩ : ∃ k, n = k + 1 := ⟨n - 1, by rw [List.length_cons] at hn; omega⟩
    have hih := ih (v := w) (n := n) ⟨rfl, h'⟩ (by rw [List.length_cons] at hn; omega)
    simp [lastNode, hw, hih]

/-- A list without repetition inside a set of `n` nodes is no longer than
`n`. -/
theorem length_le_of_nodup_lt {l : List ℕ} {n : ℕ} (hnd : l.Nodup) (h : ∀ a ∈ l, a < n) :
    l.length ≤ n := by
  have hsub : l ⊆ List.range n := fun a ha => List.mem_range.mpr (h a ha)
  have := (hnd.subperm hsub).length_le
  rwa [List.length_range] at this

/-! ### First and last pointers -/

/-- The pointers of an intrusive queue. -/
structure Links (α : Type*) where
  head : Option α
  tail : Option α
  deriving DecidableEq, Repr

namespace Links

/-- No nodes. -/
def empty : Links α := ⟨none, none⟩

/-- Hang the chain from `v` to `last` behind the queue. -/
def attach [DecidableEq α] (Q : Links α) (next : α → Option α) (v last : α) :
    (α → Option α) × Links α :=
  match Q.tail with
  | some t => (Function.update next t (some v), ⟨Q.head, some last⟩)
  | none => (next, ⟨some v, some last⟩)

/-- The queue holds the nodes `l`, in order. -/
def Rep (next : α → Option α) (Q : Links α) (l : List α) : Prop :=
  Chain next Q.head l ∧ Q.tail = l.getLast?

variable {Q : Links α}

theorem rep_empty : Rep next empty [] := ⟨rfl, rfl⟩

theorem Rep.eq_empty (h : Rep next Q []) : Q = empty := by
  obtain ⟨head, tail⟩ := Q
  obtain ⟨h₁, h₂⟩ := h
  obtain rfl : head = none := h₁
  obtain rfl : tail = none := h₂
  rfl

theorem Rep.head_eq (h : Rep next Q l) : Q.head = l.head? := h.1.head_eq

theorem Rep.nodup (h : Rep next Q l) : l.Nodup := Chain.nodup h.1

theorem Rep.update [DecidableEq α] {a : α} {v : Option α} (h : Rep next Q l) (ha : a ∉ l) :
    Rep (Function.update next a v) Q l :=
  ⟨Seg.update ha h.1, h.2⟩

/-- The links of other nodes do not matter. -/
theorem Rep.congr {next' : α → Option α} (h : Rep next Q l)
    (hnext : ∀ a ∈ l, next' a = next a) : Rep next' Q l :=
  ⟨Seg.congr h.1 hnext, h.2⟩

/-- **Attaching a chain appends it.** -/
theorem Rep.attach [DecidableEq α] {v last : α} (h : Rep next Q l)
    (hv : Chain next (some v) (v :: l₂)) (hlast : (v :: l₂).getLast? = some last)
    (hd : ∀ a ∈ l, a ∉ v :: l₂) :
    Rep (Q.attach next v last).1 (Q.attach next v last).2 (l ++ v :: l₂) := by
  obtain ⟨hc, ht⟩ := h
  rcases l.eq_nil_or_concat with rfl | ⟨l, t, rfl⟩
  · have hnone : Q.tail = none := ht
    simp only [Links.attach, hnone]
    exact ⟨hv, hlast.symm⟩
  · rw [List.concat_eq_append] at *
    have hsome : Q.tail = some t := by rw [ht]; simp
    simp only [Links.attach, hsome]
    refine ⟨Chain.link hc hv hd, ?_⟩
    rw [List.getLast?_append, hlast]
    rfl

/-- The same when the last node is found by walking, as in

    if (tail) tail->next = v; else head = v;
    while (v->next) v = v->next;
    tail = v; -/
theorem Rep.attach_walk [DecidableEq α] {v : α} {n : ℕ} (h : Rep next Q l)
    (hv : Chain next (some v) (v :: l₂)) (hd : ∀ a ∈ l, a ∉ v :: l₂) (hn : l₂.length ≤ n) :
    Rep (Q.attach next v v).1
        ⟨(Q.attach next v v).2.head, some (lastNode (Q.attach next v v).1 n v).1⟩ (l ++ v :: l₂) ∧
      (lastNode (Q.attach next v v).1 n v).2 = (v :: l₂).length := by
  have hkeep : Chain (Q.attach next v v).1 (some v) (v :: l₂) := by
    unfold Links.attach
    rcases ht : Q.tail with - | t
    · exact hv
    · have hmem : t ∈ l := List.mem_of_getLast? (by rw [← h.2, ht])
      exact Seg.update (hd t hmem) hv
  have hrep := h.attach hv (List.getLast?_eq_some_getLast (List.cons_ne_nil v l₂)) hd
  rw [hkeep.lastNode_eq hn]
  refine ⟨?_, rfl⟩
  -- the links and the head do not depend on the last node
  unfold Links.attach at hrep ⊢
  rcases ht : Q.tail with - | t <;> simp only [ht] at hrep ⊢ <;> exact hrep

/-- Appending one node, whose own link is cleared first. -/
theorem Rep.push [DecidableEq α] {v : α} (h : Rep next Q l) (hv : v ∉ l) :
    Rep (Q.attach (Function.update next v none) v v).1
      (Q.attach (Function.update next v none) v v).2 (l ++ [v]) := by
  have hsingle : Chain (Function.update next v none) (some v) [v] :=
    ⟨rfl, Chain.nil_iff.mpr (Function.update_self v none next)⟩
  refine (h.update hv).attach hsingle rfl ?_
  intro a ha hav
  rw [List.mem_singleton] at hav
  exact hv (hav ▸ ha)

/-- Links that neither belong to the queue nor are written are kept. -/
theorem attach_of_not_mem [DecidableEq α] {v last a : α} (h : Rep next Q l) (ha : a ∉ l) :
    (Q.attach next v last).1 a = next a := by
  unfold Links.attach
  rcases ht : Q.tail with - | t
  · rfl
  · have hmem : t ∈ l := List.mem_of_getLast? (by rw [← h.2, ht])
    have hne : a ≠ t := by
      rintro rfl
      exact ha hmem
    exact Function.update_of_ne hne _ _

theorem push_of_not_mem [DecidableEq α] {v a : α} (h : Rep next Q l) (hv : v ∉ l) (hav : a ≠ v)
    (ha : a ∉ l) : (Q.attach (Function.update next v none) v v).1 a = next a := by
  rw [attach_of_not_mem (h.update hv) ha, Function.update_of_ne hav]

/-- **Taking the first node**, as in

    head = head->next;
    if (head == 0) tail = 0; -/
theorem Rep.pop {v : α} (h : Rep next Q (v :: l)) :
    Q.head = some v ∧ Rep next ⟨next v, if next v = none then none else Q.tail⟩ l := by
  obtain ⟨⟨hhead, hrest⟩, htail⟩ := h
  refine ⟨hhead, hrest, ?_⟩
  show (if next v = none then none else Q.tail) = l.getLast?
  cases l with
  | nil =>
    have hnone : next v = none := hrest
    rw [if_pos hnone]
    rfl
  | cons w l =>
    have hsome : next v = some w := hrest.1
    rw [if_neg (by rw [hsome]; simp), htail, List.getLast?_cons_cons]

/-- **Taking the first `n + 1` nodes** of more than so many: a loop `f` finds the
last of them, and its link is cleared, as in

    while (--count) item = item->next;
    head = item->next; item->next = 0; -/
theorem Rep.cut [DecidableEq α] {f : ℕ → α → Option α} {n : ℕ} (h : Rep next Q l)
    (hzero : ∀ v, f 0 v = some v) (hsucc : ∀ n v, f (n + 1) v = (next v).bind (f n))
    (hn : n + 1 < l.length) :
    ∃ first item, Q.head = some first ∧ f n first = some item ∧
      Chain (Function.update next item none) (some first) (l.take (n + 1)) ∧
      Rep (Function.update next item none) ⟨next item, Q.tail⟩ (l.drop (n + 1)) := by
  -- the last node that is taken, and the ones around it
  obtain ⟨as, item, bs, rfl, rfl⟩ : ∃ as item bs, l = as ++ item :: bs ∧ as.length = n := by
    refine ⟨l.take n, l[n], l.drop (n + 1), ?_, by rw [List.length_take]; omega⟩
    rw [← List.drop_eq_getElem_cons, List.take_append_drop]
  obtain ⟨hchain, htail⟩ := h
  obtain ⟨first, hfirst⟩ : ∃ first, Q.head = some first := by
    rw [hchain.head_eq]
    cases as <;> exact ⟨_, rfl⟩
  rw [hfirst] at hchain
  obtain ⟨htaken, hleft⟩ := hchain.cut
  have hlen : (as ++ [item]).length = as.length + 1 := by
    rw [List.length_append, List.length_singleton]
  rw [List.append_cons, List.take_left' hlen, List.drop_left' hlen]
  refine ⟨first, item, hfirst, hchain.advance_eq hzero hsucc, htaken, hleft, ?_⟩
  have hbs : bs ≠ [] := by
    rintro rfl
    rw [List.length_append, List.length_singleton] at hn
    omega
  show Q.tail = bs.getLast?
  rw [htail, List.append_cons, List.getLast?_append_of_ne_nil _ hbs]

/-- **A family of queues** without common nodes: a node is appended to one of
them, and the others are as before. -/
theorem rep_push_update {ι : Type*} [DecidableEq ι] [DecidableEq α] {Q : ι → Links α}
    {l : ι → List α} {i : ι} {v : α} (h : ∀ j, Rep next (Q j) (l j)) (hv : ∀ j, v ∉ l j)
    (hapart : ∀ j ≠ i, ∀ a ∈ l j, a ∉ l i) (j : ι) :
    Rep ((Q i).attach (Function.update next v none) v v).1
      (Function.update Q i ((Q i).attach (Function.update next v none) v v).2 j)
      (Function.update l i (l i ++ [v]) j) := by
  rcases eq_or_ne j i with rfl | hj
  · rw [Function.update_self, Function.update_self]
    exact (h j).push (hv j)
  · rw [Function.update_of_ne hj, Function.update_of_ne hj]
    refine (h j).congr ?_
    intro a ha
    refine push_of_not_mem (h i) (hv i) ?_ (hapart j hj a ha)
    rintro rfl
    exact hv j ha

/-- Clearing the link of the new node after attaching it, as in

    *trans = v; trans = &(v->next); *trans = 0;

is the same as clearing it before. -/
theorem attach_clear [DecidableEq α] {v : α} (h : Rep next Q l) (hv : v ∉ l) :
    Function.update (Q.attach next v v).1 v none =
        (Q.attach (Function.update next v none) v v).1 ∧
      (Q.attach next v v).2 = (Q.attach (Function.update next v none) v v).2 := by
  unfold Links.attach
  rcases ht : Q.tail with - | t
  · exact ⟨rfl, rfl⟩
  · have hmem : t ∈ l := List.mem_of_getLast? (by rw [← h.2, ht])
    have hne : v ≠ t := by
      rintro rfl
      exact hv hmem
    exact ⟨(Function.update_comm hne _ _ _).symm, rfl⟩

/-- So a node that stands at the head of another chain moves behind the queue:
the rest of that chain is found through its link, which is then cleared, and
no link outside the queue is written. -/
theorem Rep.move [DecidableEq α] {v : α} (h : Rep next Q l) (hv : v ∉ l) :
    Rep (Function.update (Q.attach next v v).1 v none) (Q.attach next v v).2 (l ++ [v]) ∧
      (Q.attach next v v).1 v = next v ∧
      ∀ a, a ∉ l → a ≠ v → Function.update (Q.attach next v v).1 v none a = next a := by
  refine ⟨?_, attach_of_not_mem h hv, ?_⟩
  · rw [(attach_clear h hv).1, (attach_clear h hv).2]
    exact h.push hv
  · intro a ha hav
    rw [Function.update_of_ne hav]
    exact attach_of_not_mem h ha

end Links

end Xkim
