import RouteScaffold.Proofs.Edit.Inserting

/-!
# Import Statements in Any Text

What an erasure of imports does to a text that was written by hand, in which a
statement may run over several lines. The text is only asked to keep its import
statements together: each stands in a first part of the text, which ends with a
line, and has its semicolon there. Then a statement that is added behind that part
is read by itself, and one that mentions nothing that is looked for is passed over.

## Main definitions

* `Pattern.ImportsClosed`: A text that has its import statements in a first part.

## Theorems

* `quiet_importOf`, `quiet_importFrom`: The statements of the first part are passed
  over.
* `quiet_behind`, `quiet_end`: There are no statements behind it.
-/

namespace RouteScaffold

open Cursor Text

namespace Cursor

theorem passed_none (s : Text) : passed none s = s.getLast? := by
  rcases List.eq_nil_or_concat s with rfl | ⟨s, c, rfl⟩
  · rfl
  · rw [List.concat_eq_append, passed_concat, List.getLast?_concat]

end Cursor

namespace Recogniser

/-- A stretch is quiet if nothing is read in front of any of its characters. -/
theorem quiet_iff {m : Recogniser} {b : Option Char} {s r : Text} :
    Quiet m b s r ↔ ∀ u c v, s = u ++ c :: v → m ⟨passed b u, c :: (v ++ r)⟩ = none := by
  induction s generalizing b with
  | nil => exact ⟨fun _ u c v h => absurd h (by simp), fun _ => trivial⟩
  | cons d s ih =>
      rw [quiet_cons, ih]
      constructor
      · rintro ⟨hd, hs⟩ u c v h
        cases u with
        | nil =>
            rcases List.cons.inj h with ⟨rfl, rfl⟩
            exact hd
        | cons e u =>
            rcases List.cons.inj h with ⟨rfl, hsplit⟩
            exact hs u c v hsplit
      · intro h
        refine ⟨h [] d s rfl, fun u c v hs => ?_⟩
        exact h (d :: u) c v (by rw [hs]; rfl)

/-- Nothing is read in front of what a search finds. -/
theorem quiet_of_findFrom {m : Recogniser} {b : Option Char} {t : Text} {o : Occurrence}
    (h : m.findFrom b t = some o) : Quiet m b o.before (o.hit ++ o.after) := by
  induction t generalizing b o with
  | nil =>
      rcases Option.map_eq_some_iff.mp h with ⟨n, -, rfl⟩
      trivial
  | cons c t ih =>
      rw [findFrom] at h
      split at h
      · rw [← Option.some.inj h]
        trivial
      · next hnone =>
          rcases Option.map_eq_some_iff.mp h with ⟨o', ho', rfl⟩
          refine ⟨?_, ih ho'⟩
          have hsplit : o'.before ++ (o'.hit ++ o'.after) = t := append_of_findFrom ho'
          rw [hsplit]
          exact Option.map_eq_none_iff.mp hnone

end Recogniser

namespace Pattern

open Recogniser

theorem importHead?_eq_some {b : Option Char} {t : Text} {k : Cursor} :
    importHead? ⟨b, t⟩ = some k ↔ (∀ c ∈ b, c = '\n')
      ∧ ∃ c, isBlank c = true ∧ t = "import".toList ++ c :: k.after ∧ k.before = some c := by
  rw [importHead?_eq]
  constructor
  · intro h
    split at h
    · next hstart =>
        rcases Option.bind_eq_some_iff.mp h with ⟨⟨b', t'⟩, hlit, hone⟩
        rcases one?_eq_some.mp hone with ⟨c, hc, ht', hk⟩
        refine ⟨?_, c, hc, ?_, hk⟩
        · cases b with
          | none => simp
          | some c => simpa [atLineStart] using hstart
        · rw [(literal?_eq_some.mp hlit).1, ← ht']
    · exact absurd h (by simp)
  · rintro ⟨hb, c, hc, rfl, hk⟩
    rw [if_pos (atLineStart_of hb _), literal?_append, Option.bind_some, one?_eq_some]
    exact ⟨c, hc, rfl, hk⟩

theorem anchored_importHead : Anchored importHead? := by
  intro c t hc
  cases h : importHead? ⟨some c, t⟩ with
  | none => rfl
  | some k => exact absurd ((importHead?_eq_some.mp h).1 c rfl) hc

theorem passes_importHead {s : Text} (h : 'i' ∉ s) : Passes importHead? s := by
  refine passes_of_forall fun b c hc t => importHead?_eq_none fun d hd => ?_
  rw [← Option.some.inj hd]
  rintro rfl
  exact h hc

/-- What is no import statement is passed over by both erasures. -/
theorem quiet_of_importHead {b : Option Char} {s r : Text} (h : Quiet importHead? b s r)
    (w : Text) : Quiet (recognise (.importOf w)) b s r ∧ Quiet (recognise (.importFrom w)) b s r := by
  rw [quiet_iff] at h
  constructor <;> rw [quiet_iff] <;> intro u c v hs
  · rw [recognise_importOf_eq, h u c v hs, Option.bind_none]
  · rw [recognise_importFrom_eq, h u c v hs, Option.bind_none]

/-- The import statements of a text stand in its first part, and each has its
    semicolon there. -/
def ImportsClosed (head t : Text) : Prop :=
  ∀ s c r, t = s ++ ("import".toList ++ c :: r) → (∀ d ∈ s.getLast?, d = '\n') → isBlank c = true →
    ∃ u v, head = s ++ ("import".toList ++ c :: (u ++ ';' :: v))

section Closed

variable {head t e s rest w folder : Text}

/-- The statements of the first part are the same whatever follows it. -/
theorem ImportsClosed.statement (h : ImportsClosed head (head ++ t))
    (hends : ∀ c ∈ head.getLast?, c = '\n') {u v : Text} {c : Char} (hsplit : head = u ++ c :: v)
    {k : Cursor} (hk : importHead? ⟨passed none u, c :: (v ++ rest)⟩ = some k) :
    ∃ d body z, k.before = some d ∧ k.after = body ++ ';' :: (z ++ rest) ∧ ';' ∉ body
      ∧ head = u ++ ("import".toList ++ d :: (body ++ ';' :: z)) := by
  rcases importHead?_eq_some.mp hk with ⟨hstart, d, hd, hafter, hbefore⟩
  have hlast : ∀ e ∈ (c :: v).getLast?, e = '\n' := by
    rwa [hsplit, List.getLast?_append_of_ne_nil _ (by simp)] at hends
  -- The first part ends with a line, so no head of a statement goes over its end.
  have hinside : ∃ z, c :: v = "import".toList ++ d :: z ∧ k.after = z ++ rest := by
    have hcut : (c :: v) ++ rest = ("import".toList ++ [d]) ++ k.after := by
      rw [List.append_assoc]
      exact hafter
    rcases List.append_eq_append_iff.mp hcut with ⟨z, hz, hrest⟩ | ⟨z, hz, hk'⟩
    · rcases List.eq_nil_or_concat z with rfl | ⟨z, e, rfl⟩
      · rw [List.append_nil] at hz
        exact ⟨[], hz.symm, by rw [List.nil_append, hrest, List.nil_append]⟩
      · exfalso
        rw [List.concat_eq_append, ← List.append_assoc] at hz
        have hword := List.append_inj_left' hz rfl
        have hmem : '\n' ∈ "import".toList := by
          rw [hword, ← hlast _ (List.getLast?_eq_getLast_of_ne_nil (List.cons_ne_nil c v))]
          exact List.mem_append_left _ (List.getLast_mem _)
        exact absurd hmem (by decide)
    · exact ⟨z, by rw [hz, List.append_assoc]; rfl, hk'⟩
  rcases hinside with ⟨z, hz, hrest⟩
  rw [hz] at hsplit
  rw [passed_none] at hstart
  rcases h u d (z ++ t) (by rw [hsplit]; simp) hstart hd with ⟨u', v', hclosed⟩
  have hz' : z = u' ++ ';' :: v' := by
    rw [hsplit] at hclosed
    exact (List.cons.inj (List.append_cancel_left (List.append_cancel_left hclosed))).2
  rcases all_or_first (· = ';') z with hnone | ⟨body, x, z', rfl, hbody, hx⟩
  · exact absurd (hnone ';' (by rw [hz']; simp)) (by simp)
  · rw [decide_eq_true_eq] at hx
    subst hx
    refine ⟨d, body, z', hbefore, ?_, fun hmem => absurd (hbody _ hmem) (by simp), hsplit⟩
    rw [hrest]
    simp

theorem mentionsFrom_append {b : Option Char} {u v : Text} (h : mentionsFrom w (passed b u) v = true) :
    mentionsFrom w b (u ++ v) = true := by
  rcases (mentionsFrom_iff _ _ _).mp h with ⟨s, r, rfl, hfirst, hlast⟩
  refine (mentionsFrom_iff _ _ _).mpr ⟨u ++ s, r, by simp, ?_, ?_⟩
  · rwa [passed_append]
  · rwa [passed_append]

/-- A statement of the first part that mentions nothing of what is looked for is
    passed over. -/
theorem ImportsClosed.quiet_importOf (h : ImportsClosed head (head ++ t))
    (hends : ∀ c ∈ head.getLast?, c = '\n') (hne : w ≠ []) (hw : ';' ∉ w)
    (hmention : mentions w (head ++ t) = false) (rest : Text) :
    Quiet (recognise (.importOf w)) none head rest := by
  rw [quiet_iff]
  intro u c v hsplit
  rw [recognise_importOf_eq]
  cases hk : importHead? ⟨passed none u, c :: (v ++ rest)⟩ with
  | none => rfl
  | some k =>
      rcases h.statement hends hsplit hk with ⟨d, body, z, hbefore, hafter, hbody, hhead⟩
      have hnone : mentionsFrom w (some d) body = false := by
        rw [Bool.eq_false_iff]
        intro hin
        rw [mentions_eq, Bool.eq_false_iff] at hmention
        apply hmention
        have hwhole : head ++ t = (u ++ ("import".toList ++ [d])) ++ (body ++ ';' :: (z ++ t)) := by
          rw [hhead]
          simp
        rw [hwhole]
        apply mentionsFrom_append
        rw [← List.append_assoc, passed_concat, mentionsFrom_delimited hne (by decide) hw, hin,
          Bool.true_or]
      have := (wordChoice_statement hw (some d) hbody (z ++ rest)).lazily (p := (· ≠ ';'))
        (ne_of_not_mem hbody) (by simp)
      rw [hnone, if_neg (by simp), ← hafter, ← hbefore, Option.map_eq_none_iff] at this
      exact this

/-- A statement of the first part is passed over if what its source is to begin with
    stands nowhere there. -/
theorem ImportsClosed.quiet_importFrom (h : ImportsClosed head (head ++ t))
    (hends : ∀ c ∈ head.getLast?, c = '\n') (hfolder : ';' ∉ folder) (habsent : ¬ folder <:+: head)
    (rest : Text) : Quiet (recognise (.importFrom folder)) none head rest := by
  rw [quiet_iff]
  intro u c v hsplit
  rw [recognise_importFrom_eq]
  cases hk : importHead? ⟨passed none u, c :: (v ++ rest)⟩ with
  | none => rfl
  | some k =>
      rcases h.statement hends hsplit hk with ⟨d, body, z, hbefore, hafter, hbody, hhead⟩
      rw [Option.bind_some]
      cases hread : Cursor.lazily (· ≠ ';') (importSource? folder) k with
      | none => rfl
      | some k' =>
          exfalso
          rcases exists_of_lazyFrom hread with ⟨s, r, hsr, hs, hsource⟩
          rcases importSource?_eq_some hsource with ⟨gap, q, body', q', rest', rfl, -, hblank, hq, -⟩
          -- The folder stands before the first semicolon, that is, in the statement.
          have hfree : ∀ c ∈ s ++ ("from".toList ++ (gap ++ q :: folder)), decide (c ≠ ';') = true := by
            have hgap : ∀ c ∈ gap, decide (c ≠ ';') = true := fun c hc =>
              decide_eq_true (fun h => absurd (hblank c hc) (by rw [h]; decide))
            have hquote : decide (q ≠ ';') = true :=
              decide_eq_true (fun h => absurd hq (by rw [h]; decide))
            have hend : ∀ c ∈ q :: folder, decide (c ≠ ';') = true :=
              List.forall_mem_cons.mpr ⟨hquote, ne_of_not_mem hfolder⟩
            exact List.forall_mem_append.mpr ⟨hs, List.forall_mem_append.mpr
              ⟨by decide, List.forall_mem_append.mpr ⟨hgap, hend⟩⟩⟩
          rw [hafter] at hsr
          rcases run_in_stretch (u := body) (r := body' ++ q' :: ';' :: rest')
            (by rw [hsr]; simp) hfree (by simp) with ⟨v', hv', -⟩
          apply habsent
          rw [hhead, hv']
          exact ⟨u ++ ("import".toList ++ d :: (s ++ ("from".toList ++ (gap ++ [q])))),
            v' ++ ';' :: z, by simp⟩

theorem lineStart_append (hends : ∀ c ∈ head.getLast?, c = '\n') {b : Option Char} {u : Text}
    (hu : ∀ c ∈ passed b u, c = '\n') : ∀ c ∈ (head ++ u).getLast?, c = '\n' := by
  by_cases hnil : u = []
  · rwa [hnil, List.append_nil]
  · rwa [← passed_none, passed_append, passed_of_ne_nil _ b hnil]

/-- No statement begins behind the first part. -/
theorem ImportsClosed.not_behind (h : ImportsClosed head (head ++ t)) {u r : Text} {d : Char}
    (ht : t = u ++ ("import".toList ++ d :: r)) (hd : isBlank d = true)
    (hstart : ∀ c ∈ (head ++ u).getLast?, c = '\n') : False := by
  rcases h (head ++ u) d r (by rw [ht, List.append_assoc]) hstart hd with ⟨u', v', hclosed⟩
  have := congrArg List.length hclosed
  simp only [List.length_append, List.length_cons] at this
  omega

/-- There are no statements behind the first part, nor over the end of a stretch
    that is followed by something else. -/
theorem ImportsClosed.quiet_behind {c : Char} (h : ImportsClosed head (head ++ (e ++ t)))
    (hends : ∀ c ∈ head.getLast?, c = '\n') (hc : c ∉ "import".toList) (hblank : isBlank c = false)
    (b : Option Char) (rest : Text) : Quiet importHead? b e (c :: rest) := by
  rw [quiet_iff]
  intro u x v hsplit
  cases hk : importHead? ⟨passed b u, x :: (v ++ c :: rest)⟩ with
  | none => rfl
  | some k =>
      exfalso
      rcases importHead?_eq_some.mp hk with ⟨hstart, d, hd, hafter, -⟩
      -- The keyword and the character behind it lie within the stretch, as the next one is neither
      -- a letter of it nor a blank.
      have hinside : ∃ z, x :: v = "import".toList ++ d :: z := by
        have hcut : (x :: v) ++ c :: rest = ("import".toList ++ [d]) ++ k.after := by
          rw [List.append_assoc]
          exact hafter
        rcases List.append_eq_append_iff.mp hcut with ⟨z, hz, hrest⟩ | ⟨z, hz, -⟩
        · cases z with
          | nil => exact ⟨[], by rw [List.append_nil] at hz; exact hz.symm⟩
          | cons y z =>
              exfalso
              rw [← (List.cons.inj hrest).1] at hz
              have hmem : c ∈ "import".toList ++ [d] := by
                rw [hz]
                simp
              rcases List.mem_append.mp hmem with hmem | hmem
              · exact hc hmem
              · rw [List.mem_singleton.mp hmem, hd] at hblank
                exact absurd hblank (by simp)
        · exact ⟨z, by rw [hz, List.append_assoc]; rfl⟩
      rcases hinside with ⟨z, hz⟩
      exact h.not_behind (u := u) (r := z ++ t) (by rw [hsplit, hz]; simp) hd
        (lineStart_append hends hstart)

/-- There are no statements at the end of a text, if it does not begin with one. -/
theorem ImportsClosed.quiet_end {c : Char} (h : ImportsClosed head (head ++ (e ++ c :: s)))
    (hc : c ≠ 'i') (b : Option Char) : Quiet importHead? b (c :: s) [] := by
  rw [quiet_iff]
  intro u x v hsplit
  cases u with
  -- A search at the start needs the first letter of the keyword.
  | nil =>
      refine importHead?_eq_none fun d hd => ?_
      rw [← Option.some.inj hd, ← (List.cons.inj hsplit).1]
      exact hc
  | cons y u =>
      cases hk : importHead? ⟨passed b (y :: u), x :: (v ++ [])⟩ with
      | none => rfl
      | some k =>
          exfalso
          rcases importHead?_eq_some.mp hk with ⟨hstart, d, hd, hafter, -⟩
          rw [List.append_nil] at hafter
          refine h.not_behind (u := e ++ y :: u) (r := k.after) (by rw [hsplit, hafter]; simp) hd ?_
          rwa [← passed_none, ← List.append_assoc, passed_append, passed_of_ne_nil _ b (by simp)]

end Closed

end Pattern

end RouteScaffold
