import RouteScaffold.Proofs.Edit.Anchors
import RouteScaffold.Proofs.Edit.Insertion
import RouteScaffold.Proofs.Edit.Revising
import RouteScaffold.Proofs.Text.Names

/-!
# Insertions into Any File

An insertion is swallowed if its lines stand in the file already, and it fails
if its anchor does not. Where neither is so, it makes the text longer, and so
the file is written. The next insertion then reads what has been written, with
the line endings turned once more.

A chain of insertions says of a raw text that each of some edits in turn makes
its insertion, and with what the file is left. It is all that has to be known
of a file to follow a revision that only adds.

## Main definitions

* `Edit.Inserts`: What an edit makes of a text that it inserts into.
* `Edit.InsertsAll`: Edits that each insert into what the one before has left.
* `Text.Aligned`: A text stands in another with no word running into it.

## Theorems

* `inserts_before`, `inserts_behind`, `inserts_atHead`: When an edit inserts.
* `on_make_of_insertsAll`: What a revision of insertions does to a file.
-/

namespace RouteScaffold

open Cursor Naming

/-! ### Parts of texts -/

namespace Text

variable {l s t : Text} {c : Char}

theorem infix_left (hlast : l.getLast? = some c) (hc : c ∉ t) (h : l <:+: s ++ t) : l <:+: s := by
  rcases h with ⟨a, b, hab⟩
  rcases List.append_eq_append_iff.mp hab with ⟨z, rfl, -⟩ | ⟨z, hz, rfl⟩
  · exact ⟨a, z, rfl⟩
  · cases z with
    | nil => exact ⟨a, [], by rw [hz, List.append_nil, List.append_nil]⟩
    | cons d z =>
        -- The part ends behind `s`, with a character that `t` does not have.
        have hmem : c ∈ d :: z := by
          have hl := congrArg List.getLast? hz
          rw [List.getLast?_append, List.getLast?_append, hlast] at hl
          rw [Option.or_of_isSome rfl, Option.or_of_isSome (by simp)] at hl
          exact List.mem_of_getLast? hl.symm
        exact absurd (List.mem_append_left b hmem) hc

theorem infix_right (hhead : l.head? = some c) (hc : c ∉ s) (h : l <:+: s ++ t) : l <:+: t := by
  have hrev : l.reverse <:+: t.reverse ++ s.reverse := by
    rw [← List.reverse_append]
    exact List.reverse_infix.mpr h
  have := infix_left (c := c) (by simpa using hhead) (by simpa using hc) hrev
  exact List.reverse_infix.mp this

/-- A text stands in another with no word running into it. -/
def Aligned (l t : Text) : Prop :=
  ∃ s r, t = s ++ (l ++ r) ∧ (passed none s).any isWord = false

theorem not_isWord_of_isBlank (h : isBlank c = true) : isWord c = false := by
  cases hw : isWord c with
  | false => rfl
  | true =>
      have := isBlank_of_tame (c := c) (by simp [isTame, hw])
      rw [h] at this
      exact absurd this (by simp)

/-- What is trimmed off a text is of the class that is trimmed. -/
theorem exists_of_trimBoth (q : Char → Bool) (t : Text) :
    ∃ s r, t = s ++ (trimBoth q t ++ r) ∧ s.all q = true ∧ r.all q = true := by
  refine ⟨t.takeWhile q, ((t.dropWhile q).reverse.takeWhile q).reverse, ?_, ?_, ?_⟩
  · rw [trimBoth, trimEnd, ← List.reverse_append, List.takeWhile_append_dropWhile,
      List.reverse_reverse, List.takeWhile_append_dropWhile]
  · exact List.all_eq_true.mpr fun c hc => List.mem_takeWhile_imp hc
  · exact List.all_eq_true.mpr fun c hc => List.mem_takeWhile_imp (List.mem_reverse.mp hc)

theorem passed_blanks (h : ∀ c ∈ s, isBlank c = true) {b : Option Char} (hb : b.any isWord = false) :
    (passed b s).any isWord = false := by
  induction s generalizing b with
  | nil => exact hb
  | cons c s ih =>
      exact ih (fun d hd => h d (by simp [hd])) (not_isWord_of_isBlank (h c (by simp)))

/-- A line that is looked for stands in a text with no word running into it. -/
theorem aligned_of_mem_trimmedLines (h : l ∈ trimmedLines t) : Aligned l t := by
  rw [trimmedLines, List.mem_filter, List.mem_map] at h
  rcases h with ⟨⟨line, hline, rfl⟩, -⟩
  -- It stands in a line, and lines begin behind a break or at the start.
  have hstart : ∃ s r, t = s ++ (line ++ r) ∧ (passed none s).any isWord = false := by
    induction t using lineInduction with
    | last u hu =>
        rw [lines_line hu, List.mem_singleton] at hline
        exact ⟨[], [], by rw [hline]; simp, rfl⟩
    | line u r hu ih =>
        rw [lines_append hu, List.mem_cons] at hline
        rcases hline with rfl | hline
        · exact ⟨[], '\n' :: r, rfl, rfl⟩
        · rcases ih hline with ⟨s, r', rfl, hs⟩
          refine ⟨u ++ '\n' :: s, r', by simp, ?_⟩
          rw [passed_append]
          cases s with
          | nil => exact show isWord '\n' = false by decide
          | cons c s => exact hs
  rcases hstart with ⟨s, r, rfl, hs⟩
  -- Trimming takes off blanks only, and no word runs through blanks.
  rcases exists_of_trimBoth isBlank line with ⟨a, b, hline', ha, -⟩
  refine ⟨s ++ a, b ++ r, ?_, ?_⟩
  · calc s ++ (line ++ r) = s ++ ((a ++ (trim line ++ b)) ++ r) := by rw [trim, ← hline']
      _ = (s ++ a) ++ (trim line ++ (b ++ r)) := by simp only [List.append_assoc]
  · rw [passed_append]
    exact passed_blanks (List.all_eq_true.mp ha) hs

theorem aligned_of_toLf (hbreak : '\n' ∉ l) (h : Aligned l (toLf t)) : Aligned l t := by
  rcases h with ⟨s, r, heq, hs⟩
  rcases exists_of_toLf_append heq with ⟨s', u, rfl, rfl, hu⟩
  rcases exists_of_toLf_append hu with ⟨l', r', rfl, hl, -⟩
  have hl' : l' = l := by
    rw [← hl]
    exact (toLf_of_no_break fun hmem => hbreak (hl ▸ break_mem_toLf hmem)).symm
  exact ⟨s', r', by rw [hl'], by rw [passed_toLf] at hs; exact hs⟩

/-- What is aligned in a text that was written and read again was aligned in
    it before. -/
theorem aligned_of_reread (hbreak : '\n' ∉ l) {e : LineEnding} (h : Aligned l (t.withEnding e).toLf) :
    Aligned l t := by
  rcases reread_cases t e with heq | heq
  · rw [heq] at h
    exact aligned_of_toLf hbreak h
  · rw [heq] at h
    exact aligned_of_toLf hbreak (aligned_of_toLf hbreak h)

/-- A line that is not part of the first one stands behind it. -/
theorem aligned_behindLine {u : Text} (hbreak : '\n' ∉ l) (hc : c ∈ l) (hu : c ∉ u)
    (h : Aligned l (u ++ '\n' :: t)) : Aligned l t := by
  rcases h with ⟨s, r, heq, hs⟩
  rcases List.append_eq_append_iff.mp heq with ⟨z, rfl, hz⟩ | ⟨z, rfl, hz⟩
  · cases z with
    | nil =>
        cases l with
        -- An empty line could not hold the character.
        | nil => exact absurd hc (by simp)
        | cons d l =>
            rw [List.nil_append, List.cons_append, List.cons.injEq] at hz
            exact absurd (by rw [← hz.1]; simp) hbreak
    | cons d z =>
        rw [List.cons_append, List.cons.injEq] at hz
        rcases hz with ⟨rfl, rfl⟩
        refine ⟨z, r, rfl, ?_⟩
        rw [passed_append] at hs
        cases z with
        | nil => rfl
        | cons e z => exact hs
  · -- The line would begin within the first one, and so would end there.
    rcases List.append_eq_append_iff.mp hz with ⟨y, rfl, -⟩ | ⟨y, rfl, hy⟩
    · exact absurd (by simp [hc]) hu
    · cases y with
      | nil =>
          rw [List.append_nil] at hc
          exact absurd (by simp [hc]) hu
      | cons d y =>
          rw [List.cons_append, List.cons.injEq] at hy
          exact absurd (by rw [← hy.1]; simp) hbreak

/-- A line that has to stand for a text to be held already. -/
theorem mem_of_alreadyHolds {content : Text} (h : alreadyHolds content t = true)
    (hl : l ∈ trimmedLines t) : l ∈ trimmedLines content := by
  rw [alreadyHolds] at h
  generalize trimmedLines content = ls at h
  induction ls with
  | nil =>
      rw [standsIn, List.isEmpty_iff] at h
      rw [h] at hl
      exact absurd hl (by simp)
  | cons line ls ih =>
      rw [standsIn, Bool.or_eq_true, List.isPrefixOf_iff_prefix] at h
      rcases h with h | h
      · exact h.subset hl
      · exact List.mem_cons_of_mem line (ih h)

end Text

namespace Recogniser

/-- An occurrence is a stretch of the text. -/
theorem append_of_findFrom {m : Recogniser} {b : Option Char} {t : Text} {o : Occurrence}
    (h : m.findFrom b t = some o) : o.before ++ (o.hit ++ o.after) = t := by
  induction t generalizing b o with
  | nil =>
      rw [findFrom, Option.map_eq_some_iff] at h
      rcases h with ⟨n, -, rfl⟩
      rfl
  | cons c t ih =>
      rw [findFrom] at h
      -- The hit is here, or in what follows the first character.
      split at h
      · next n hn =>
          rw [Option.some.injEq] at h
          rw [← h]
          exact List.take_append_drop n (c :: t)
      · rw [Option.map_eq_some_iff] at h
        rcases h with ⟨o', ho', rfl⟩
        exact congrArg (c :: ·) (ih ho')

/-- What an occurrence covers is what was read there. -/
theorem hit_of_findFrom {m : Recogniser} {b : Option Char} {t : Text} {o : Occurrence}
    (h : m.findFrom b t = some o) : ∃ k, m ⟨passed b o.before, o.hit ++ o.after⟩ = some k
      ∧ o.hit = (o.hit ++ o.after).take ((o.hit ++ o.after).length - k.after.length) := by
  induction t generalizing b o with
  | nil =>
      rw [findFrom, Option.map_eq_some_iff] at h
      rcases h with ⟨n, hn, rfl⟩
      rw [length?, Option.map_eq_some_iff] at hn
      rcases hn with ⟨k, hk, -⟩
      exact ⟨k, hk, by simp⟩
  | cons c t ih =>
      rw [findFrom] at h
      split at h
      · next n hn =>
          rw [Option.some.injEq] at h
          rw [length?, Option.map_eq_some_iff] at hn
          -- What is covered is as long as what has been read.
          rcases hn with ⟨k, hk, rfl⟩
          rw [← h]
          refine ⟨k, ?_, ?_⟩
          · dsimp only
            rw [List.take_append_drop]
            exact hk
          · dsimp only
            rw [List.take_append_drop]
      · rw [Option.map_eq_some_iff] at h
        rcases h with ⟨o', ho', rfl⟩
        exact ih (b := some c) ho'

end Recogniser

/-! ### One insertion -/

namespace Edit

/-- What an edit makes of a text that it inserts into: its text in front of the
    first occurrence of its anchor, or behind it, or in front of everything. -/
def Inserts : Edit → (content edited : Text) → Prop
  | before a t, content, edited => ∃ o, a.locate? content = some o ∧ edited = o.before
      ++ Text.reindent t (Text.lastIndent o.before) ++ '\n' :: Text.lastIndent o.before ++ o.hit
      ++ o.after
  | behind a t, content, edited => ∃ o, a.locate? content = some o ∧ edited = o.before ++ o.hit
      ++ '\n' :: (Text.lastIndent o.before ++ "  ")
      ++ Text.reindent t (Text.lastIndent o.before ++ "  ") ++ o.after
  | atHead t, content, edited => edited = Text.reindent t [] ++ '\n' :: content
  | append _, _, _ | erase _, _, _ | cutRoute .., _, _ => False

variable {e : Edit} {content u file : Text} {a : Anchor} {t : Text}

/-- An insertion makes a text longer. -/
theorem Inserts.length_lt (h : e.Inserts content u) : content.length < u.length := by
  cases e with
  -- An edit that inserts puts a line break in, at least.
  | before a t =>
      rcases h with ⟨o, ho, rfl⟩
      rw [← Recogniser.append_of_findFrom ho]
      simp only [List.length_append, List.length_cons]
      omega
  | behind a t =>
      rcases h with ⟨o, ho, rfl⟩
      rw [← Recogniser.append_of_findFrom ho]
      simp only [List.length_append, List.length_cons]
      omega
  | atHead t =>
      rw [show u = Text.reindent t [] ++ '\n' :: content from h]
      simp only [List.length_append, List.length_cons]
      omega
  | append line => exact h.elim
  | erase p => exact h.elim
  | cutRoute segment within => exact h.elim

theorem inserts_before (hnew : Text.alreadyHolds content t = false) (ha : a.Stands content)
    (file : Text) : ∃ u, (before a t).apply file content = .ok u ∧ (before a t).Inserts content u := by
  rcases Option.isSome_iff_exists.mp ha with ⟨o, ho⟩
  exact ⟨_, Insert.before_eq hnew ho, o, ho, rfl⟩

theorem inserts_behind (hnew : Text.alreadyHolds content t = false) (ha : a.Stands content)
    (file : Text) : ∃ u, (behind a t).apply file content = .ok u ∧ (behind a t).Inserts content u := by
  rcases Option.isSome_iff_exists.mp ha with ⟨o, ho⟩
  exact ⟨_, Insert.behind_eq hnew ho, o, ho, rfl⟩

theorem inserts_atHead (hnew : Text.alreadyHolds content t = false) (file : Text) :
    ∃ u, (atHead t).apply file content = .ok u ∧ (atHead t).Inserts content u :=
  ⟨_, congrArg Except.ok (Insert.atHead_eq hnew), rfl⟩

/-- An insertion is written. -/
theorem written_of_inserts {raw : Text} (happly : e.apply file raw.toLf = .ok u)
    (h : e.Inserts raw.toLf u) : e.written file raw = .ok (some (u.withEnding (.detect raw))) := by
  have hne : u ≠ raw.toLf := fun heq => absurd h.length_lt (by rw [heq]; exact Nat.lt_irrefl _)
  rw [written]
  simp only [happly, bind, Except.bind, if_neg hne]
  rfl

/-- Edits that each insert into what the one before has left in a file: the
    texts that are written, one after the other. -/
inductive InsertsAll (file : Text) : List Edit → Text → List Text → Prop where
  | nil {raw : Text} : InsertsAll file [] raw []
  | cons {e : Edit} {es : List Edit} {raw u : Text} {ts : List Text}
      (apply_eq : e.apply file raw.toLf = .ok u) (inserts : e.Inserts raw.toLf u)
      (rest : InsertsAll file es (u.withEnding (.detect raw)) ts) :
      InsertsAll file (e :: es) raw (u.withEnding (.detect raw) :: ts)

theorem InsertsAll.first {es : List Edit} {raw : Text} {ts : List Text}
    (h : InsertsAll file (e :: es) raw ts) : ∃ u ts', e.apply file raw.toLf = .ok u
      ∧ e.Inserts raw.toLf u ∧ InsertsAll file es (u.withEnding (.detect raw)) ts' := by
  cases h with
  | @cons _ _ _ u ts' happly hinserts hrest => exact ⟨u, ts', happly, hinserts, hrest⟩

end Edit

/-! ### Revisions that insert -/

namespace Job

open Disk RouteScaffold.Tree Edit

variable {p : Path} {d : Disk} {loc : Location} {c : Content} {raw : Text} {es : List Edit}
  {ts : List Text}

/-- The writes of insertions into one file. -/
def rewrites (loc : Location) (ts : List Text) : List Write := ts.map fun t => .put loc (.file (.text t))

theorem operation_of_inserts {e : Edit} {content u : Text} (h : e.Inserts content u) :
    e.operation ≠ .append := by
  cases e <;> first | exact h.elim | simp [operation]

/-- An insertion into a file that can be exchanged. -/
theorem on_edit_of_inserts {e : Edit} {u : Text} (hreplace : d.replaceable p = .ok loc)
    (hfile : d.tree.get? loc = some (.file c)) (hread : c.read = .ok raw)
    (happly : e.apply p.text raw.toLf = .ok u) (h : e.Inserts raw.toLf u) : (edit p e).on d
      = (.ok true, d.made (.put loc (.file (.text (u.withEnding (.detect raw)))))) := by
  rw [on_edit_raw (operation_of_inserts h) hreplace hfile hread, written_of_inserts happly h]

/-- A file that is exchanged can be exchanged again. -/
theorem replaceable_made (hreplace : d.replaceable p = .ok loc) (t : Text) :
    (d.made (.put loc (.file (.text t)))).replaceable p = .ok loc
      ∧ (d.made (.put loc (.file (.text t)))).tree.get? loc = some (.file (.text t)) := by
  have hadmits : d.tree.Admits (.put loc (.file (.text t))) := (replaceable_eq hreplace).2.1
  have hnow : (d.made (.put loc (.file (.text t)))).tree.get? loc = some (.file (.text t)) := by
    rw [made, get?_apply_put hadmits, if_pos rfl]
  exact ⟨replaceable_of_folders hreplace rfl (fun l hl => hadmits.keeps_folder hl) (by simp [hnow]),
    hnow⟩

theorem on_mapM_of_insertsAll (h : InsertsAll p.text es raw ts) (hreplace : d.replaceable p = .ok loc)
    (hfile : d.tree.get? loc = some (.file c)) (hread : c.read = .ok raw) :
    (es.mapM (edit p)).on d = (.ok (es.map fun _ => true), d.after (rewrites loc ts)) := by
  induction h generalizing d c with
  | nil => rfl
  | cons happly hinserts _ ih =>
      rcases replaceable_made hreplace _ with ⟨hagain, hnow⟩
      rw [List.mapM_cons, on_bind_ok (on_edit_of_inserts hreplace hfile hread happly hinserts),
        on_bind_ok (ih hagain hnow rfl)]
      rfl

/-- A revision of insertions writes the file once for each of them, unless the
    file cannot be exchanged; then it fails at once, and writes nothing. -/
theorem on_make_of_insertsAll {r : Revision} (h : InsertsAll r.file.text r.edits raw ts)
    (hne : r.edits ≠ []) (hfind : d.find r.file = .ok loc) (hfile : d.tree.get? loc = some (.file c))
    (hread : c.read = .ok raw) : r.make.on d = match d.replaceable r.file with
      | .ok _ => (.ok true, d.after (rewrites loc ts))
      | .error f => (.error (.system f r.file.text), d) := by
  cases hr : d.replaceable r.file with
  | ok loc' =>
      have heq : loc' = loc := by
        have := (replaceable_eq hr).1
        rw [hfind, Except.ok.injEq] at this
        exact this.symm
      subst heq
      rw [Revision.make, on_bind_ok (on_mapM_of_insertsAll h hr hfile hread)]
      cases hes : r.edits with
      | nil => exact absurd hes hne
      | cons e es => rfl
  | error f =>
      -- The first edit is an insertion, so it is the one that is refused.
      have hfirst : ∀ es : List Edit, es ≠ [] → InsertsAll r.file.text es raw ts →
          (es.mapM (edit r.file)).on d = (.error (.system f r.file.text), d) := by
        intro es hes hall
        cases hall with
        | nil => exact absurd rfl hes
        | @cons e _ _ _ _ happly hinserts _ =>
            have hedit : (edit r.file e).on d = (.error (.system f r.file.text), d) := by
              rw [edit_of_not_append (operation_of_inserts hinserts),
                on_editExisting_of_read (on_readRaw_of_file hfind hfile hread),
                written_of_inserts happly hinserts]
              dsimp only
              rw [hr]
            rw [List.mapM_cons, on_bind_error hedit]
      rw [Revision.make, on_bind_error (hfirst r.edits hne h)]

end Job

end RouteScaffold
