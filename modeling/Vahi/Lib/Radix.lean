import Mathlib.Data.List.Basic

/-!
# Radix trees of fixed depth

A tree of depth `n + 1` is a tag and a list of slots, each empty or with a tree of depth `n`; a path
of slot numbers leads to at most one leaf.
-/

namespace Vahi.Lib

open List

variable {τ α β γ : Type}

def collect (f : β → List γ) : List (Option β) → List γ
  | [] => []
  | none :: slots => collect f slots
  | some b :: slots => f b ++ collect f slots

variable {slots : List (Option β)} {i : ℕ} {b : β} {f : β → List γ} {c : γ}

theorem lt_length_of_join (h : slots[i]?.join = some b) : i < slots.length := by
  by_contra hi
  rw [getElem?_eq_none (Nat.le_of_not_lt hi)] at h
  cases h

/-- Each slot has its part in what is collected, and replacing it changes only that part. -/
theorem collect_split (f : β → List γ) (hi : i < slots.length) :
    ∃ l₁ l₂, collect f slots = l₁ ++ collect f [slots[i]?.join] ++ l₂ ∧
      ∀ slot, collect f (slots.set i slot) = l₁ ++ collect f [slot] ++ l₂ := by
  induction slots generalizing i with
  | nil => cases hi
  | cons first slots ih =>
    cases i with
    | zero =>
      refine ⟨[], collect f slots, ?_, fun slot => ?_⟩
      · cases first <;> simp [collect]
      · cases slot <;> simp [collect]
    | succ i =>
      obtain ⟨l₁, l₂, h₁, h₂⟩ := ih (Nat.lt_of_succ_lt_succ hi)
      refine ⟨collect f [first] ++ l₁, l₂, ?_, fun slot => ?_⟩
      · cases first <;> simp [collect, h₁]
      · cases first <;> simp [collect, h₂]

theorem collect_set (f : β → List γ) (h : slots[i]?.join = some b) :
    ∃ l₁ l₂, collect f slots = l₁ ++ f b ++ l₂ ∧
      ∀ slot, collect f (slots.set i slot) = l₁ ++ collect f [slot] ++ l₂ := by
  obtain ⟨l₁, l₂, hl, hset⟩ := collect_split f (lt_length_of_join h)
  refine ⟨l₁, l₂, ?_, hset⟩
  simpa [h, collect] using hl

theorem collect_set_eq {b' : β} (h : slots[i]?.join = some b) (hb : f b' = f b) :
    collect f (slots.set i (some b')) = collect f slots := by
  obtain ⟨l₁, l₂, hl, hl'⟩ := collect_set f h
  simp [hl, hl', collect, hb]

theorem mem_collect (h : slots[i]?.join = some b) (hc : c ∈ f b) : c ∈ collect f slots := by
  obtain ⟨l₁, l₂, hl, -⟩ := collect_set f h
  simp [hl, hc]

theorem mem_collect_iff : c ∈ collect f slots ↔ ∃ b, some b ∈ slots ∧ c ∈ f b := by
  induction slots with
  | nil => simp [collect]
  | cons first slots ih => cases first <;> simp [collect, ih, or_and_right, exists_or]

/-- A filled slot and the others. -/
theorem collect_perm (f : β → List γ) (h : slots[i]?.join = some b) :
    (collect f slots).Perm (f b ++ collect f (slots.set i none)) := by
  obtain ⟨l₁, l₂, hl, hl'⟩ := collect_set f h
  rw [hl, hl', append_assoc]
  simpa [collect] using perm_append_comm_assoc l₁ (f b) l₂

theorem collect_append (f : β → List γ) (slots slots' : List (Option β)) :
    collect f (slots ++ slots') = collect f slots ++ collect f slots' := by
  induction slots with
  | nil => rfl
  | cons first slots ih => cases first <;> simp [collect, ih]

theorem join_getElem?_set (slots : List (Option β)) (slot : Option β) (i j : ℕ) :
    (slots.set i slot)[j]?.join = if i = j ∧ i < slots.length then slot else slots[j]?.join := by
  rw [getElem?_set]
  by_cases hij : i = j
  · subst hij
    by_cases hi : i < slots.length
    · rw [if_pos rfl, if_pos hi, if_pos ⟨rfl, hi⟩, Option.join_some]
    · rw [if_pos rfl, if_neg hi, if_neg fun h => hi h.2, getElem?_eq_none (Nat.le_of_not_lt hi)]
  · rw [if_neg hij, if_neg fun h => hij h.1]

structure Node (τ β : Type) where
  tag : τ
  slots : List (Option β)

@[reducible]
def Radix (τ α : Type) : ℕ → Type
  | 0 => α
  | n + 1 => Node τ (Radix τ α n)

namespace Radix

def leaves : (n : ℕ) → Radix τ α n → List α
  | 0, a => [a]
  | n + 1, t => collect (leaves n) (Node.slots t)

def tags : (n : ℕ) → Radix τ α n → List τ
  | 0, _ => []
  | n + 1, t => Node.tag t :: collect (tags n) (Node.slots t)

def get : (n : ℕ) → Radix τ α n → List ℕ → Option α
  | 0, a, [] => some a
  | 0, _, _ :: _ => none
  | _ + 1, _, [] => none
  | n + 1, t, i :: path => (Node.slots t)[i]?.join.bind fun b => get n b path

def set (a : α) : (n : ℕ) → Radix τ α n → List ℕ → Radix τ α n
  | 0, _, [] => a
  | 0, b, _ :: _ => b
  | _ + 1, t, [] => t
  | n + 1, t, i :: path =>
    match (Node.slots t)[i]?.join with
    | some b => Node.mk (Node.tag t) ((Node.slots t).set i (some (set a n b path)))
    | none => t

variable {n i : ℕ} {path : List ℕ}

theorem set_cons {t : Node τ (Radix τ α n)} {b : Radix τ α n}
    (h : t.slots[i]?.join = some b) (a : α) (path : List ℕ) :
    set a (n + 1) t (i :: path) = Node.mk t.tag (t.slots.set i (some (set a n b path))) := by
  simp only [set, h]

variable {t : Radix τ α n} {a : α}

theorem get_set_self (b : α)
    (h : get n t path = some a) : get n (set b n t path) path = some b := by
  induction n generalizing path with
  | zero =>
    cases path with
    | nil => rfl
    | cons i path => cases h
  | succ n ih =>
    cases path with
    | nil => cases h
    | cons i path =>
      obtain ⟨c, hc, hget⟩ := Option.bind_eq_some_iff.mp h
      have hi : i < (Node.slots t).length := lt_length_of_join hc
      rw [set_cons hc, get, join_getElem?_set, if_pos ⟨rfl, hi⟩, Option.bind_some]
      exact ih hget

theorem get_set_of_ne (t : Radix τ α n) {path' : List ℕ} (b : α)
    (hne : path' ≠ path) : get n (set b n t path) path' = get n t path' := by
  induction n generalizing path path' with
  | zero =>
    cases path with
    | nil =>
      cases path' with
      | nil => exact absurd rfl hne
      | cons i path' => rfl
    | cons i path => rfl
  | succ n ih =>
    cases path with
    | nil => rfl
    | cons i path =>
      cases hc : (Node.slots t)[i]?.join with
      | none => simp only [set, hc]
      | some c =>
        rw [set_cons hc]
        cases path' with
        | nil => rfl
        | cons j path' =>
          rw [get, get, join_getElem?_set]
          split
          · next hij =>
            obtain ⟨rfl, -⟩ := hij
            rw [hc, Option.bind_some, Option.bind_some]
            exact ih c fun h => hne (congrArg (i :: ·) h)
          · rfl

/-- The nodes stay when a leaf is replaced. -/
theorem tags_set (t : Radix τ α n) (path : List ℕ) (a : α) :
    tags n (set a n t path) = tags n t := by
  induction n generalizing path with
  | zero => cases path <;> rfl
  | succ n ih =>
    cases path with
    | nil => rfl
    | cons i path =>
      cases hc : (Node.slots t)[i]?.join with
      | none => simp only [set, hc]
      | some b =>
        obtain ⟨l₁, l₂, hl, hl'⟩ := collect_set (tags n) hc
        rw [set_cons hc, tags, tags, hl', hl]
        simp [collect, ih b path]

def erase : (n : ℕ) → Radix τ α n → List ℕ → Option (Radix τ α n)
  | 0, _, [] => none
  | 0, a, _ :: _ => some a
  | _ + 1, t, [] => some t
  | n + 1, t, i :: path =>
    match (Node.slots t)[i]?.join with
    | some b => some (Node.mk (Node.tag t) ((Node.slots t).set i (erase n b path)))
    | none => some t

theorem erase_cons {t : Node τ (Radix τ α n)} {b : Radix τ α n}
    (h : t.slots[i]?.join = some b) (path : List ℕ) :
    erase (n + 1) t (i :: path) = some (Node.mk t.tag (t.slots.set i (erase n b path))) := by
  simp only [erase, h]

/-- Replacing a leaf changes one place in the list of leaves, and erasing it takes it out there. -/
theorem leaves_split (h : get n t path = some a) :
    ∃ l₁ l₂, leaves n t = l₁ ++ a :: l₂ ∧ (∀ b, leaves n (set b n t path) = l₁ ++ b :: l₂) ∧
      collect (leaves n) [erase n t path] = l₁ ++ l₂ := by
  induction n generalizing path with
  | zero =>
    cases path with
    | nil =>
      cases h
      exact ⟨[], [], rfl, fun b => rfl, rfl⟩
    | cons i path => cases h
  | succ n ih =>
    cases path with
    | nil => cases h
    | cons i path =>
      obtain ⟨c, hc, hget⟩ := Option.bind_eq_some_iff.mp h
      obtain ⟨m₁, m₂, hm, hmset, hmerase⟩ := ih hget
      obtain ⟨l₁, l₂, hl, hset⟩ := collect_set (leaves n) hc
      refine ⟨l₁ ++ m₁, m₂ ++ l₂, ?_, fun b => ?_, ?_⟩
      · rw [leaves, hl, hm]
        simp
      · rw [set_cons hc, leaves, hset]
        simp [collect, hmset]
      · rw [erase_cons hc, collect, leaves, hset, hmerase]
        simp [collect]



theorem mem_leaves_of_get (h : get n t path = some a) : a ∈ leaves n t := by
  obtain ⟨l₁, l₂, hl, -⟩ := leaves_split h
  simp [hl]

theorem tags_erase (t : Radix τ α n) (path : List ℕ) :
    collect (tags n) [erase n t path] = tags n t := by
  induction n generalizing path with
  | zero => cases path <;> rfl
  | succ n ih =>
    cases path with
    | nil => simp [erase, collect]
    | cons i path =>
      cases hc : (Node.slots t)[i]?.join with
      | none => simp [erase, hc, collect]
      | some b =>
        obtain ⟨l₁, l₂, hl, hl'⟩ := collect_set (tags n) hc
        rw [erase_cons hc, collect, tags, tags, hl', hl, ih b path]
        simp [collect]

/-- What an insertion leaves: the tree, what it took the tags of new nodes from, and whether
there is a new leaf. -/
structure Inserted (σ β : Type) where
  tree : Option β
  source : σ
  done : Bool

variable {σ : Type}

def insertAt (ins : Option β → List ℕ → σ → Inserted σ β) (t : Node τ β) :
    List ℕ → σ → Inserted σ (Node τ β)
  | [], s => ⟨some t, s, false⟩
  | i :: path, s =>
    if i < t.slots.length then
      let r := ins t.slots[i]?.join path s
      ⟨some ⟨t.tag, t.slots.set i r.tree⟩, r.source, r.done⟩
    else ⟨some t, s, false⟩

/-- A leaf at the end of a path where there is none, with new nodes of `width` empty slots where
they are missing. It fails when there are no tags left. -/
def insert (fresh : σ → Option (τ × σ)) (width : ℕ) (a : α) :
    (n : ℕ) → Option (Radix τ α n) → List ℕ → σ → Inserted σ (Radix τ α n)
  | 0, none, [], s => ⟨some a, s, true⟩
  | 0, slot, _, s => ⟨slot, s, false⟩
  | n + 1, some t, path, s => insertAt (insert fresh width a n) t path s
  | n + 1, none, path, s =>
    match fresh s with
    | some (tag, s) => insertAt (insert fresh width a n) ⟨tag, List.replicate width none⟩ path s
    | none => ⟨none, s, false⟩

end Radix

/-- Filling or replacing any slot. -/
theorem collect_set_perm (f : β → List γ) (hi : i < slots.length)
    (slot : Option β) : ∃ rest, (collect f slots).Perm (collect f [slots[i]?.join] ++ rest) ∧
      (collect f (slots.set i slot)).Perm (collect f [slot] ++ rest) := by
  obtain ⟨l₁, l₂, hl, hset⟩ := collect_split f hi
  rw [hl, hset, append_assoc, append_assoc]
  exact ⟨l₁ ++ l₂, perm_append_comm_assoc .., perm_append_comm_assoc ..⟩

theorem collect_replicate_none (f : β → List γ) (n : ℕ) :
    collect f (List.replicate n none) = [] := by
  induction n with
  | zero => rfl
  | succ n ih => exact ih

namespace Radix

variable {σ : Type}

/-- What an insertion into a slot does to the tags `tg` and the leaves `lv` below it: the tags of
the nodes are those that satisfy `J`, with `rest` for other uses, and the new leaf is the only
change. -/
def InsertOk (J : List τ → σ → Prop) (tg : β → List τ) (lv : β → List α) (a : α)
    (slot : Option β) (s : σ) (r : Inserted σ β) : Prop :=
  (∀ rest, J (collect tg [slot] ++ rest) s → J (collect tg [r.tree] ++ rest) r.source) ∧
    (collect lv [r.tree]).Perm ((if r.done then [a] else []) ++ collect lv [slot])

variable {J : List τ → σ → Prop} {a : α}

theorem InsertOk.refl (tg : β → List τ) (lv : β → List α) (slot : Option β) (s : σ) :
    InsertOk J tg lv a slot s ⟨slot, s, false⟩ :=
  ⟨fun _ h => h, by simp⟩

variable {n : ℕ} {q : List ℕ} {ins : Option (Radix τ α n) → List ℕ → σ → Inserted σ (Radix τ α n)}

theorem insertAt_spec (hperm : ∀ l l' s, l.Perm l' → J l s → J l' s)
    (hins : ∀ slot path s, InsertOk J (tags n) (leaves n) a slot s (ins slot path s))
    (t : Radix τ α (n + 1)) (path : List ℕ) (s : σ) :
    InsertOk J (tags (n + 1)) (leaves (n + 1)) a (some t) s (insertAt ins t path s) := by
  cases path with
  | nil => exact InsertOk.refl _ _ _ _
  | cons i path =>
    rw [insertAt]
    split
    · next hi =>
      obtain ⟨htags, hleaves⟩ := hins (Node.slots t)[i]?.join path s
      constructor
      · intro rest h
        obtain ⟨others, h₁, h₂⟩ :=
          collect_set_perm (tags n) hi (ins (Node.slots t)[i]?.join path s).tree
        have hbefore : J (collect (tags n) [(Node.slots t)[i]?.join] ++
            (others ++ Node.tag t :: rest)) s := by
          refine hperm _ _ _ ?_ h
          simp only [collect, tags, append_nil, cons_append]
          rw [← append_assoc]
          exact ((h₁.append_right _).cons _).trans perm_middle.symm
        refine hperm _ _ _ ?_ (htags _ hbefore)
        simp only [collect, tags, append_nil, cons_append]
        rw [← append_assoc]
        exact perm_middle.trans ((h₂.symm.append_right _).cons _)
      · obtain ⟨others, h₁, h₂⟩ :=
          collect_set_perm (leaves n) hi (ins (Node.slots t)[i]?.join path s).tree
        simp only [collect, leaves, append_nil]
        refine h₂.trans ((hleaves.append_right others).trans ?_)
        rw [append_assoc]
        exact (h₁.symm).append_left _
    · exact InsertOk.refl _ _ _ _

/-- An insertion takes the tags of new nodes from its source and adds at most one leaf. -/
theorem insert_spec {fresh : σ → Option (τ × σ)}
    (hperm : ∀ l l' s, l.Perm l' → J l s → J l' s)
    (hfresh : ∀ l s tag s', fresh s = some (tag, s') → J l s → J (tag :: l) s') (width : ℕ) (a : α)
    (n : ℕ) (slot : Option (Radix τ α n)) (path : List ℕ) (s : σ) :
    InsertOk J (tags n) (leaves n) a slot s (insert fresh width a n slot path s) := by
  induction n generalizing path s with
  | zero =>
    cases slot with
    | none =>
      cases path with
      | nil => exact ⟨fun _ h => h, by simp [insert, collect, leaves]⟩
      | cons i path => exact InsertOk.refl _ _ _ _
    | some b => cases path <;> exact InsertOk.refl _ _ _ _
  | succ n ih =>
    cases slot with
    | some t => exact insertAt_spec hperm (fun slot path s => ih slot path s) t path s
    | none =>
      rw [insert]
      split
      · next tag s' hs =>
        obtain ⟨htags, hleaves⟩ := insertAt_spec hperm (fun slot path s => ih slot path s)
          ⟨tag, List.replicate width none⟩ path s'
        refine ⟨fun rest h => htags rest ?_, hleaves.trans ?_⟩
        · simpa [collect, tags, collect_replicate_none] using hfresh _ _ _ _ hs h
        · simp [collect, leaves, collect_replicate_none]
      · exact InsertOk.refl _ _ _ _

theorem get_insertAt (hins : ∀ slot path s q b, (slot.bind (get n · q)) = some b →
      ((ins slot path s).tree.bind (get n · q)) = some b)
    (t : Radix τ α (n + 1)) (path : List ℕ) (s : σ) {b : α}
    (h : get (n + 1) t q = some b) :
    ((insertAt ins t path s).tree.bind (get (n + 1) · q)) = some b := by
  cases path with
  | nil => exact h
  | cons i path =>
    rw [insertAt]
    split
    · cases q with
      | nil => cases h
      | cons j q =>
        rw [Option.bind_some, get, join_getElem?_set]
        split
        · next hij =>
          obtain ⟨rfl, -⟩ := hij
          exact hins _ path s q b h
        · exact h
    · exact h

/-- An insertion keeps the leaves that are there. -/
theorem get_insert (fresh : σ → Option (τ × σ)) (width : ℕ) {slot : Option (Radix τ α n)}
    (path : List ℕ) (s : σ) {b : α} (h : (slot.bind (get n · q)) = some b) :
    ((insert fresh width a n slot path s).tree.bind (get n · q)) = some b := by
  induction n generalizing path s q b with
  | zero =>
    cases slot with
    | none => cases h
    | some c => cases path <;> exact h
  | succ n ih =>
    cases slot with
    | none => cases h
    | some t => exact get_insertAt (fun slot path s q b hq => ih path s hq) t path s h

end Radix

end Vahi.Lib
