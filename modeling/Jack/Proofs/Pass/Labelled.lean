import Jack.Proofs.Pass.Replay

/-!
# Labels of unfinished code

A statement that branches takes two numbers for its labels before anything else, and defines each of
its labels at most once. So the labels in the code are distinct at every point of a pass, also if
the pass fails there.
-/

namespace Jack

open Syntax

/-- From `p` to `q` some code was written whose labels are distinct. Their numbers were taken from
`p` to `q`, or they are among `own`. -/
structure Labelled (cls : String) (own : List Nat) (p q : Progress Listing) : Prop where
  grows : p.labels ≤ q.labels
  written : ∃ (code : List Instruction) (numbers : List Nat),
    q.sink = ⟨code.reverse ++ p.sink.latest⟩ ∧ labelsOf code = numbers.map (label cls) ∧
    numbers.Nodup ∧ ∀ n ∈ numbers, n ∈ own ∨ p.labels ≤ n ∧ n < q.labels

namespace Labelled

variable {cls : String} {own own' : List Nat} {p q r : Progress Listing}

theorem silent (sink : q.sink = p.sink) (grows : p.labels ≤ q.labels) : Labelled cls [] p q :=
  ⟨grows, [], [], sink, rfl, List.nodup_nil, List.forall_mem_nil _⟩

theorem mono (h : Labelled cls own p q) (more : own ⊆ own') : Labelled cls own' p q where
  grows := h.grows
  written := by
    obtain ⟨code, numbers, sink, labels, nodup, from_own⟩ := h.written
    exact ⟨code, numbers, sink, labels, nodup, fun n hn => (from_own n hn).imp_left (@more n)⟩

theorem trans (h : Labelled cls own p q) (h' : Labelled cls own' q r) (apart : own.Disjoint own')
    (old : ∀ n ∈ own, n < p.labels) (old' : ∀ n ∈ own', n < p.labels) :
    Labelled cls (own ++ own') p r where
  grows := Nat.le_trans h.grows h'.grows
  written := by
    obtain ⟨code, numbers, sink, labels, nodup, taken⟩ := h.written
    obtain ⟨code', numbers', sink', labels', nodup', taken'⟩ := h'.written
    have grows := h.grows
    have grows' := h'.grows
    refine ⟨code ++ code', numbers ++ numbers', ?_, ?_, ?_, ?_⟩
    · rw [sink', sink, List.reverse_append, List.append_assoc]
    · rw [labelsOf_append, labels, labels', List.map_append]
    · refine List.nodup_append.2 ⟨nodup, nodup', fun n hn m hm same => ?_⟩
      subst same
      -- A number that both parts use would be old and new at once, or be twice among the old ones.
      obtain hn | hn := taken n hn
      · obtain hm | hm := taken' n hm
        · exact apart hn hm
        · have := old n hn
          omega
      · obtain hm | hm := taken' n hm
        · have := old' n hm
          omega
        · omega
    · refine List.forall_mem_append.2 ⟨fun n hn => ?_, fun n hn => ?_⟩
      · obtain hn | hn := taken n hn
        · exact .inl (List.mem_append_left _ hn)
        · exact .inr (by omega)
      · obtain hn | hn := taken' n hn
        · exact .inl (List.mem_append_right _ hn)
        · exact .inr (by omega)

/-- The label with the next number is taken, for one that is left to the rest. -/
theorem taking (h : Labelled cls (own ++ [p.labels]) { p with labels := p.labels + 1 } q) :
    Labelled cls own p q where
  grows := Nat.le_of_succ_le h.grows
  written := by
    obtain ⟨code, numbers, sink, labels, nodup, taken⟩ := h.written
    have grows : p.labels + 1 ≤ q.labels := h.grows
    refine ⟨code, numbers, sink, labels, nodup, fun n hn => ?_⟩
    obtain mem | ⟨lower, upper⟩ := taken n hn
    · obtain mem | rfl := List.mem_append.1 mem |>.imp_right List.mem_singleton.1
      · exact .inl mem
      · exact .inr ⟨Nat.le_refl _, grows⟩
    · exact .inr ⟨Nat.le_of_succ_le lower, upper⟩

end Labelled

namespace Pass

variable {α β : Type} {cls : String} {own own' : List Nat} {p : Progress Listing}

theorem labelled_append {x : Pass Listing α} {f : α → Pass Listing β}
    (first : Labelled cls own p (final (x p)))
    (next : ∀ a q, x p = .ok a q → p.labels ≤ q.labels → Labelled cls own' q (final (f a q)))
    (apart : own.Disjoint own') (old : ∀ n ∈ own, n < p.labels) (old' : ∀ n ∈ own', n < p.labels) :
    Labelled cls (own ++ own') p (final ((x >>= f) p)) := by
  cases hx : x p with
  | error e q =>
    rw [hx] at first
    rw [bind_of_error hx]
    exact first.mono (List.subset_append_left _ _)
  | ok a q =>
    rw [hx] at first
    rw [bind_of_ok hx]
    exact first.trans (next a q hx first.grows) apart old old'

theorem labelled_then {x : Pass Listing α} {f : α → Pass Listing β}
    (first : Labelled cls [] p (final (x p)))
    (next : ∀ a q, x p = .ok a q → Labelled cls [] q (final (f a q))) :
    Labelled cls [] p (final ((x >>= f) p)) :=
  labelled_append first (fun a q run _ => next a q run) (List.disjoint_nil_left _)
    (List.forall_mem_nil _) (List.forall_mem_nil _)

/-- A piece of a pass to which old labels are left. If they are distinct, then so are the labels
that it writes, and no other old labels are among them. -/
theorem Parallel.labelled {labels : List String} {x y : Pass Listing α}
    (h : Parallel (Eq cls) Eq labels x y) (p : Progress Listing) (own : List Nat)
    (names : labels = own.map (label cls)) (nodup : own.Nodup) (old : ∀ n ∈ own, n < p.labels) :
    Labelled cls own p (final (x p)) := by
  have unnumbered {own : List Nat} (names : [] = own.map (label cls)) : own = [] :=
    List.map_eq_nil_iff.1 names.symm
  induction h generalizing p own with
  | append _ _ ihx ihf =>
    obtain ⟨first, second, rfl, rfl, rfl⟩ := List.map_eq_append_iff.1 names.symm
    obtain ⟨nodup₁, nodup₂, apart⟩ := List.nodup_append'.1 nodup
    obtain ⟨old₁, old₂⟩ := List.forall_mem_append.1 old
    refine labelled_append (ihx p first rfl nodup₁ old₁) (fun a q _ le => ?_) apart old₁ old₂
    exact ihf a q second rfl nodup₂ fun n hn => Nat.lt_of_lt_of_le (old₂ n hn) le
  | here _ ih => exact ih _ _ rfl p own names nodup old
  | fresh same _ ih =>
    obtain rfl := same
    -- The label taken here is the last one that is left to the rest.
    let q : Progress Listing := { p with labels := p.labels + 1 }
    refine .taking (ih _ q (own ++ [p.labels]) ?_ ?_ ?_)
    · rw [List.map_append, names]
      rfl
    · refine List.nodup_append'.2 ⟨nodup, List.nodup_singleton _, ?_⟩
      exact List.disjoint_singleton.2 fun mem => Nat.lt_irrefl _ (old _ mem)
    · refine List.forall_mem_append.2 ⟨fun n hn => Nat.lt_succ_of_lt (old n hn), ?_⟩
      exact List.forall_mem_singleton.2 (Nat.lt_succ_self _)
  | @emit i _ same =>
    refine ⟨Nat.le_refl _, [i], own, rfl, ?_, nodup, fun _ => .inl⟩
    rw [labelsOf_cons, same, names]
    exact List.append_nil _
  | identifier =>
    rw [unnumbered names, identifier_apply]
    cases p.cursor.identifier with
    | ok name => exact .silent rfl (Nat.le_refl _)
    | error e => exact .silent rfl (Nat.le_refl _)
  | _ =>
    rw [unnumbered names]
    exact .silent rfl (Nat.le_refl _)

/-- A piece of a pass with no old labels to define. -/
theorem Parallel.labelled_new {x y : Pass Listing α} (h : Parallel (Eq cls) Eq [] x y)
    (p : Progress Listing) : Labelled cls [] p (final (x p)) :=
  h.labelled p [] rfl List.nodup_nil (List.forall_mem_nil _)

theorem labelled_classUnit (n : Nat) (p : Progress Listing) :
    ∃ cls, Labelled cls [] p (final (classUnit n p)) := by
  let start : Pass Listing String := keyword .class >>= fun _ => identifier
  let rest (cls : String) : Pass Listing Unit :=
    symbol '{' >>= fun _ => members cls n >>= fun _ => closeClass
  have shape : classUnit n = start >>= rest := by
    simp only [start, rest, classUnit_eq, openClass, bind_assoc]
  -- The labels are those of the class that the second token names, if there is one.
  obtain ⟨cls, named⟩ : ∃ cls, ∀ a q, start p = .ok a q → a = cls := by
    cases h : start p with
    | ok name q => exact ⟨name, fun a q h => by cases h; rfl⟩
    | error e q => exact ⟨"", fun a q h => by cases h⟩
  have begins : Parallel (Eq cls) Eq [] start start :=
    .bind (parallel_keyword .class) fun _ => .identifier
  have continues : Parallel (Eq cls) Eq [] (rest cls) (rest cls) :=
    .bind (parallel_symbol '{') fun _ => .bind (parallel_members rfl n) fun _ => parallel_closeClass
  refine ⟨cls, ?_⟩
  rw [shape]
  refine labelled_then (begins.labelled_new p) fun a q read => ?_
  rw [named a q read]
  exact continues.labelled_new q

end Pass

/-- The labels that are written are distinct, wherever the compiler stops. -/
theorem nodup_labelsOf_compileClass (cursor : Cursor) :
    (labelsOf (final (compileClass cursor ({} : Listing))).code).Nodup := by
  obtain ⟨cls, labelled⟩ := Pass.labelled_classUnit (allowance cursor.rest.length)
    { cursor, sink := ({} : Listing) }
  obtain ⟨code, numbers, sink, labels, nodup, -⟩ := labelled.written
  have whole : (⟨code.reverse ++ ({} : Listing).latest⟩ : Listing).code = code := by
    rw [Listing.code, List.append_nil, List.reverse_reverse]
  rw [final_compileClass, sink, whole, labels]
  exact nodup.map fun _ _ => label_injective cls

end Jack
