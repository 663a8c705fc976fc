namespace EntityRpc

variable {ε ε' α β : Type}

theorem bind_eq_ok {x : Except ε α} {f : α → Except ε β} {b : β} :
    x >>= f = .ok b ↔ ∃ a, x = .ok a ∧ f a = .ok b := by
  cases x <;> simp [bind, Except.bind]

theorem bind_eq_iff {x : Except ε α} {f : α → Except ε β} {result : Except ε β} :
    x >>= f = result ↔
      (∃ e, x = .error e ∧ .error e = result) ∨ ∃ a, x = .ok a ∧ f a = result := by
  cases x <;> simp [bind, Except.bind]

theorem map_eq_ok {x : Except ε α} {f : α → β} {b : β} :
    x.map f = .ok b ↔ ∃ a, x = .ok a ∧ f a = b := by
  cases x <;> simp [Except.map]

theorem map_eq_error {x : Except ε α} {f : α → β} {e : ε} : x.map f = .error e ↔ x = .error e := by
  cases x <;> simp [Except.map]

theorem mapError_eq_ok {x : Except ε α} {f : ε → ε'} {a : α} :
    x.mapError f = .ok a ↔ x = .ok a := by
  cases x with
  | error e => constructor <;> intro h <;> contradiction
  | ok b =>
    constructor <;> intro h <;> obtain rfl := Except.ok.inj h <;> rfl

theorem mapError_eq_error {x : Except ε α} {f : ε → ε'} {e' : ε'} :
    x.mapError f = .error e' ↔ ∃ e, x = .error e ∧ f e = e' := by
  cases x with
  | error e =>
    constructor
    · intro h
      exact ⟨e, rfl, Except.error.inj h⟩
    · rintro ⟨cause, h, rfl⟩
      obtain rfl := Except.error.inj h
      rfl
  | ok a =>
    constructor
    · intro h
      contradiction
    · rintro ⟨e, h, -⟩
      contradiction

theorem mapM_eq_ok {f : α → Except ε β} {g : α → β} {l : List α} (h : ∀ a ∈ l, f a = .ok (g a)) :
    l.mapM f = .ok (l.map g) := by
  induction l with
  | nil => rfl
  | cons a l ih =>
    rw [List.mapM_cons, h a List.mem_cons_self, ih fun b hb ↦ h b (List.mem_cons_of_mem a hb)]
    rfl

theorem exists_ok_of_mapM_eq_ok {f : α → Except ε β} {l : List α} {results : List β}
    (h : l.mapM f = .ok results) : ∀ a ∈ l, ∃ b, f a = .ok b := by
  induction l generalizing results with
  | nil => simp
  | cons first l ih =>
    rw [List.mapM_cons] at h
    obtain ⟨b, hfirst, h⟩ := bind_eq_ok.1 h
    obtain ⟨rest, hrest, -⟩ := bind_eq_ok.1 h
    intro a ha
    rcases List.mem_cons.1 ha with rfl | ha
    · exact ⟨b, hfirst⟩
    · exact ih hrest a ha

theorem mapM_eq_error_iff {f : α → Except ε β} {l : List α} {e : ε} :
    l.mapM f = .error e ↔
      ∃ before a after, l = before ++ a :: after ∧ (∀ b ∈ before, ∃ c, f b = .ok c) ∧
        f a = .error e := by
  induction l with
  | nil => simp [pure, Except.pure]
  | cons first l ih =>
    rw [List.mapM_cons]
    constructor
    · intro h
      rcases bind_eq_iff.1 h with ⟨e', hfirst, he⟩ | ⟨c, hfirst, h⟩
      · obtain rfl := Except.error.inj he
        exact ⟨[], first, l, rfl, by simp, hfirst⟩
      · rcases bind_eq_iff.1 h with ⟨e', hrest, he⟩ | ⟨rest, -, h⟩
        · obtain rfl := Except.error.inj he
          obtain ⟨before, a, after, rfl, hbefore, ha⟩ := ih.1 hrest
          refine ⟨first :: before, a, after, rfl, ?_, ha⟩
          intro b hb
          rcases List.mem_cons.1 hb with rfl | hb
          · exact ⟨c, hfirst⟩
          · exact hbefore b hb
        · contradiction
    · rintro ⟨before, a, after, hl, hbefore, ha⟩
      cases before with
      | nil =>
        obtain ⟨rfl, rfl⟩ := List.cons.inj hl
        rw [ha]
        rfl
      | cons b before =>
        obtain ⟨rfl, rfl⟩ := List.cons.inj hl
        obtain ⟨c, hc⟩ := hbefore first List.mem_cons_self
        have hrest := ih.2 ⟨before, a, after, rfl,
          fun b hb ↦ hbefore b (List.mem_cons_of_mem first hb), ha⟩
        rw [hc, hrest]
        rfl

end EntityRpc
