import Antecedent.Cache.Basic
import Antecedent.Proofs.SortedDocuments

/-!
# The cache is not seen

A program that is read through the cache is the one that lifting gives, whatever calls came before
and whichever of their saves failed.

* `Cache.Setting` is what is assumed of the store of entries, the files and the lifter.
* `Cache.Setting.Correct` is the invariant, and `Cache.transparent` the result.
-/

namespace Antecedent

variable {p q : Program} {bytes : ByteArray} {area : String}

/-! ## §1 Text -/

/-- The bytes of an array, as a list. -/
theorem bytes_toList (bytes : ByteArray) : bytes.toList = bytes.data.toList := by
  have hsize : bytes.data.toList.length = bytes.size := by
    rw [Array.length_toList, ByteArray.size_data]
  -- the loop puts the bytes that are left behind those it has collected, in reverse
  have hloop : ∀ n i r, bytes.size - i = n →
      ByteArray.toList.loop bytes i r = r.reverse ++ bytes.data.toList.drop i := by
    intro n
    induction n with
    | zero =>
      intro i r hn
      rw [ByteArray.toList.loop, if_neg (by omega), List.drop_of_length_le (by omega),
        List.append_nil]
    | succ n ih =>
      intro i r hn
      have hi : i < bytes.data.toList.length := by omega
      have hget : bytes.get! i = bytes.data.toList[i] := by
        rw [Array.length_toList] at hi
        exact (getElem!_pos bytes.data i hi).trans (Array.getElem_toList hi).symm
      rw [ByteArray.toList.loop, if_pos (by omega), ih _ _ (by omega),
        List.drop_eq_getElem_cons hi, hget, List.reverse_cons, List.append_assoc]
      rfl
  exact hloop _ 0 [] rfl

theorem bytes_eq_of_toList {a b : ByteArray} (h : a.toList = b.toList) : a = b := by
  rw [bytes_toList, bytes_toList, Array.toList_inj] at h
  exact ByteArray.ext h

/-- A text that starts like an object is read as UTF-8. -/
theorem Text.decode?_toUTF8 {s t : String} {c : Char} (hc : c = '"' ∨ c = '\x7d')
    (h : s = String.ofList ['\x7b', c] ++ t) : decode? s.toUTF8 = some s := by
  have hbytes : s.toUTF8.toList =
      (String.ofList ['\x7b', c]).toByteArray.data.toList ++ t.toByteArray.data.toList := by
    rw [bytes_toList, String.toUTF8_eq_toByteArray, h, String.toByteArray_append,
      ByteArray.toList_data_append]
  have hdetect : detectEncoding s.toUTF8.toList = (.utf8, 0) := by
    rw [hbytes]
    rcases hc with rfl | rfl <;> rfl
  have hvalid : s.toUTF8.IsValidUTF8 := s.isValidUTF8
  rw [decode?, hdetect]
  simp only [bytes_toList, List.drop_zero, Array.toArray_toList]
  rw [String.fromUTF8?, dif_pos hvalid]
  rfl

/-- The text of an object is read as UTF-8. -/
theorem Json.decode?_compact (ms : List (Label × Json)) :
    Text.decode? (obj ms).compact.toUTF8 = some (obj ms).compact := by
  cases ms with
  | nil => exact Text.decode?_toUTF8 (t := "") (.inr rfl) rfl
  | cons m ms =>
    refine Text.decode?_toUTF8 (c := '"') (t := ", ".intercalate
      ((String.join (m.1.keyText.toList.map escapeChar) ++ "\"" ++ ": " ++ compact m.2) ::
        compactMembers ms) ++ "\x7d") (.inl rfl) ?_
    have hquote : String.ofList ['\x7b', '"'] = "\x7b" ++ "\"" := rfl
    rw [compact, compactMembers, writeString, hquote]
    simp only [String.append_assoc, String.intercalate_cons_append]

namespace Json

def ReadsBack (j : Json) : Prop :=
  parse j.compact = .ok j

mutual
/-- Equality of documents, to be computed. -/
def same : Json → Json → Bool
  | .null, .null => true
  | .bool a, .bool b => a == b
  | .int m, .int n => m == n
  | .float x, .float y => x == y
  | .str s, .str t => s == t
  | .arr js, .arr ks => sameItems js ks
  | .obj ms, .obj ns => sameMembers ms ns
  | _, _ => false
def sameItems : List Json → List Json → Bool
  | [], [] => true
  | j :: js, k :: ks => j.same k && sameItems js ks
  | _, _ => false
def sameMembers : List (Label × Json) → List (Label × Json) → Bool
  | [], [] => true
  | (l, j) :: ms, (m, k) :: ns => l == m && j.same k && sameMembers ms ns
  | _, _ => false
end

theorem eq_of_same (j k : Json) : j.same k = true → j = k := by
  -- one induction for documents, members and items, along the comparison
  apply same.induct (fun j k => j.same k = true → j = k)
    (fun ms ns => sameMembers ms ns = true → ms = ns) fun js ks => sameItems js ks = true → js = ks
  all_goals
    intros
    simp_all [same, sameItems, sameMembers]

theorem readsBack_of_same {j : Json} (h : (parse j.compact).toOption.any j.same = true) :
    j.ReadsBack := by
  cases hp : parse j.compact with
  | error => simp [hp, Except.toOption] at h
  | ok k =>
    have hsame : j.same k = true := by simpa [hp, Except.toOption] using h
    rw [ReadsBack, hp, eq_of_same j k hsame]

end Json

namespace Cache

/-- **Entries** are read back, if the text of the document is. -/
theorem decode_encode (hp : p.Documented) (hread : (Encode.program p).sorted.ReadsBack)
    (h : encode p = .ok bytes) (area : String) : decode area bytes = .ok p.sorted := by
  simp only [encode, bind_eq_ok, pure_eq_ok] at h
  obtain ⟨j, hj, rfl⟩ := h
  obtain rfl := Json.eq_sorted _ hj
  obtain ⟨ms, hms, -⟩ := Json.rewrites_sorted.obj
    [("arch", .str p.arch.name), ("subs", .arr (p.subs.map Encode.subroutine)),
      ("symbols", .arr (p.symbols.map Encode.symbol))]
  have htext : Text.decode? (Encode.program p).sorted.compact.toUTF8 =
      some (Encode.program p).sorted.compact := by
    rw [Encode.program, hms]
    exact Json.decode?_compact ms
  have hprogram : Decode.program (Encode.program p).sorted = .ok p.sorted :=
    Decode.program_encode Json.rewrites_sorted hp
  have hparse : Json.parse (Encode.program p).sorted.compact = .ok (Encode.program p).sorted :=
    hread
  simp only [decode, htext, hparse]
  rw [show (Except.ok (Encode.program p).sorted >>= Decode.program) = .ok p.sorted from hprogram]

/-! ## §2 Steps with a state -/

namespace Run

variable {σ α β : Type} {s : σ}

/-- What is true of the result of a step and the state after it, or of the state after a failure. -/
def Yields (act : Run σ α) (s : σ) (done : α → σ → Prop) (failed : σ → Prop) : Prop :=
  match Id.run (act.run.run s) with
  | (.ok a, s') => done a s'
  | (.error _, s') => failed s'

variable {done : α → σ → Prop} {done' : β → σ → Prop} {failed : σ → Prop}

theorem yields_pure {a : α} (h : done a s) : Yields (pure a) s done failed :=
  h

theorem Yields.bind {act : Run σ α} {f : α → Run σ β}
    (h : Yields act s (fun a s' => Yields (f a) s' done' failed) failed) :
    Yields (act >>= f) s done' failed := by
  unfold Yields at h ⊢
  rw [ExceptT.run_bind, StateT.run_bind, Id.run_bind]
  generalize Id.run (act.run.run s) = r at h ⊢
  rcases r with ⟨e | a, s'⟩ <;> exact h

theorem yields_lift {x : Except Fault α} (hdone : ∀ a, x = .ok a → done a s) (hfailed : failed s) :
    Yields (liftM x) s done failed := by
  cases x with
  | ok a => exact hdone a rfl
  | error e => exact hfailed

theorem Yields.mono {act : Run σ α} {done' : α → σ → Prop} {failed' : σ → Prop}
    (h : Yields act s done failed) (hdone : ∀ a s', done a s' → done' a s')
    (hfailed : ∀ s', failed s' → failed' s') : Yields act s done' failed' := by
  rw [Yields] at h ⊢
  split at h
  · exact hdone _ _ h
  · exact hfailed _ h

end Run

/-! ## §3 Settings -/

/-- What can be seen of a state: the entry of an area and a digest, the contents of files, and the
contents that were lifted so far, last first. -/
structure View where
  entry : String → String → Option ByteArray
  file : String → Option ByteArray
  lifts : List ByteArray

def View.store (v : View) (area digest : String) (bytes : ByteArray) : View :=
  { v with entry := fun a d => if a = area ∧ d = digest then some bytes else v.entry a d }

def View.lift (v : View) (contents : ByteArray) : View :=
  { v with lifts := contents :: v.lifts }

/-- What is assumed of a context.  The store is a map; saving may fail, before the entry is there or
after, but nothing else is ever stored.  The document of a file depends on its contents only. -/
structure Setting {σ : Type} (ctx : Context σ) where
  view : σ → View
  document : ByteArray → Except Fault Json
  load : ∀ area digest s, (ctx.backend.load area digest).Yields s
    (fun r s' => r = (view s).entry area digest ∧ view s' = view s) fun s' => view s' = view s
  save : ∀ area digest bytes s, (ctx.backend.save area digest bytes).Yields s
    (fun _ s' => view s' = (view s).store area digest bytes)
    fun s' => view s' = view s ∨ view s' = (view s).store area digest bytes
  contents : ∀ name s, (ctx.contents name).Yields s
    (fun c s' => (view s).file name = some c ∧ view s' = view s) fun s' => view s' = view s
  lift : ∀ name c s, (view s).file name = some c → (ctx.lift name).Yields s
    (fun j s' => document c = .ok j ∧ view s' = (view s).lift c) fun s' => view s' = (view s).lift c

def subjectOf {σ : Type} (ctx : Context σ) (c : ByteArray) : String :=
  ctx.configuration ++ ctx.digest c.toList ++ ctx.loader

def keyOf {σ : Type} (ctx : Context σ) (area : String) (c : ByteArray) : String :=
  areaDigest ctx (subjectOf ctx c) area

/-- The strings that are digested for some contents. -/
def digested {σ : Type} (ctx : Context σ) (C : Set ByteArray) : Set (List UInt8) :=
  {bs | ∃ c ∈ C, bs = c.toList ∨
    ∃ area ∈ [projectArea, knowledgeArea], bs = (area ++ ":" ++ subjectOf ctx c).toUTF8.toList}

theorem eq_of_keyOf {σ : Type} {ctx : Context σ} {C : Set ByteArray}
    (hdigest : Set.InjOn ctx.digest (digested ctx C)) (harea : area ∈ [projectArea, knowledgeArea])
    {c c' : ByteArray} (hc : c ∈ C) (hc' : c' ∈ C) (h : keyOf ctx area c = keyOf ctx area c') :
    c = c' := by
  have htext := bytes_eq_of_toList
    (hdigest ⟨c, hc, .inr ⟨area, harea, rfl⟩⟩ ⟨c', hc', .inr ⟨area, harea, rfl⟩⟩ h)
  have hsubject : subjectOf ctx c = subjectOf ctx c' := by
    rw [String.toUTF8_eq_toByteArray, String.toUTF8_eq_toByteArray, String.toByteArray_inj] at htext
    simpa using htext
  refine bytes_eq_of_toList (hdigest ⟨c, hc, .inl rfl⟩ ⟨c', hc', .inl rfl⟩ ?_)
  simpa [subjectOf] using hsubject

/-! ## §4 One call -/

section Call

variable {σ : Type} {ctx : Context σ} (S : Setting ctx)

/-- The program of contents, as lifting gives it. -/
def Setting.program (c : ByteArray) : Except Fault Program := do
  Decode.program (← S.document c)

/-- The documents of the programs of contents are read back from their texts. -/
def Setting.Legible (C : Set ByteArray) : Prop :=
  ∀ c ∈ C, ∀ p, S.program c = .ok p →
    (Encode.program p).sorted.ReadsBack ∧ (Encode.program p.strip).sorted.ReadsBack

/-- What is kept in an area for the program of a file. -/
inductive Kept : String → Program → Program → Prop where
  | project (p : Program) : Kept projectArea p p.sorted
  | knowledge (p : Program) : Kept knowledgeArea p p.strip.sorted

theorem Kept.mem_areas (h : Kept area p q) : area ∈ [projectArea, knowledgeArea] := by
  cases h <;> simp

theorem Kept.eq_sorted (h : Kept projectArea p q) : q = p.sorted := by
  generalize harea : projectArea = area at h
  cases h with
  | project => rfl
  | knowledge => exact absurd harea (by decide)

theorem Kept.eq_strip_sorted (h : Kept knowledgeArea p q) : q = p.strip.sorted := by
  generalize harea : knowledgeArea = area at h
  cases h with
  | project => exact absurd harea (by decide)
  | knowledge => rfl

/-- Every entry stands for some contents, and it is read as what is kept for their program. -/
def Setting.Correct (C : Set ByteArray) (v : View) : Prop :=
  ∀ area digest bytes, v.entry area digest = some bytes → ∃ c ∈ C, digest = keyOf ctx area c ∧
    ∃ p q, S.program c = .ok p ∧ Kept area p q ∧ decode area bytes = .ok q

/-- What a call for some contents does to what can be seen: entries stay correct and none is lost,
and if the contents were lifted, there was no entry for them. -/
structure Setting.Outcome (C : Set ByteArray) (c : ByteArray) (v v' : View) : Prop where
  correct : S.Correct C v'
  keeps : ∀ area digest, v.entry area digest ≠ none → v'.entry area digest ≠ none
  lifts : v'.lifts = v.lifts ∨ v'.lifts = c :: v.lifts ∧
    v.entry knowledgeArea (keyOf ctx knowledgeArea c) = none ∧
    v.entry projectArea (keyOf ctx projectArea c) = none

variable {S} {C : Set ByteArray} {c : ByteArray} {v v' : View} {s : σ} {name : String}

theorem View.store_self (v : View) (area digest : String) (bytes : ByteArray) :
    (v.store area digest bytes).entry area digest = some bytes := by
  simp [store]

theorem View.store_ne_none {digest a d : String} (h : v.entry a d ≠ none) :
    (v.store area digest bytes).entry a d ≠ none := by
  simp only [store]
  split
  · simp
  · exact h

theorem Setting.Correct.store (h : S.Correct C v) (hc : c ∈ C) (hp : S.program c = .ok p)
    (hkept : Kept area p q) (hdecode : decode area bytes = .ok q) :
    S.Correct C (v.store area (keyOf ctx area c) bytes) := by
  intro area' digest bytes' hentry
  simp only [View.store] at hentry
  split at hentry
  · next heq =>
    obtain ⟨rfl, rfl⟩ := heq
    obtain rfl := Option.some.inj hentry
    exact ⟨c, hc, rfl, p, q, hp, hkept, hdecode⟩
  · exact h area' digest bytes' hentry

theorem Setting.Outcome.store (h : S.Outcome C c v v') (hc : c ∈ C) (hp : S.program c = .ok p)
    (hkept : Kept area p q) (hdecode : decode area bytes = .ok q) :
    S.Outcome C c v (v'.store area (keyOf ctx area c) bytes) :=
  ⟨h.correct.store hc hp hkept hdecode, fun a d hne => View.store_ne_none (h.keeps a d hne),
    h.lifts⟩

theorem Setting.subject_yields (hfile : (S.view s).file name = some c) :
    (subject ctx name).Yields s (fun x s' => x = subjectOf ctx c ∧ S.view s' = S.view s)
      fun s' => S.view s' = S.view s := by
  refine Run.Yields.bind (Run.Yields.bind ((S.contents name s).mono ?_ fun _ h => h))
  rintro c' s' ⟨hc', hview⟩
  obtain rfl := Option.some.inj (hc'.symm.trans hfile)
  exact Run.yields_pure (Run.yields_pure ⟨rfl, hview⟩)

theorem Setting.lifted_yields (hfile : (S.view s).file name = some c) :
    (lifted ctx name).Yields s
      (fun p s' => S.program c = .ok p ∧ S.view s' = (S.view s).lift c)
      fun s' => S.view s' = (S.view s).lift c := by
  have hinner : Run.Yields (do Decode.program (← ctx.lift name)) s
      (fun p s' => S.program c = .ok p ∧ S.view s' = (S.view s).lift c)
      fun s' => S.view s' = (S.view s).lift c := by
    refine Run.Yields.bind ((S.lift name c s hfile).mono ?_ fun _ h => h)
    rintro j s' ⟨hj, hview⟩
    refine Run.yields_lift (fun p hp => ⟨?_, hview⟩) hview
    rw [Setting.program, hj]
    exact hp
  unfold Run.Yields at hinner ⊢
  rw [lifted, ExceptT.run_mk, StateT.run_bind, Id.run_bind]
  generalize Id.run (StateT.run (ExceptT.run _) s) = r at hinner ⊢
  rcases r with ⟨f | p, s'⟩
  · cases hdetail : documentDetail? f <;> simpa [hdetail] using hinner
  · exact hinner

/-- Writing an entry: what is stored is read as the program, also if saving fails. -/
theorem Setting.save_yields {α : Type} {act : Run σ α} {done : α → σ → Prop} {failed : σ → Prop}
    (hq : q.Documented) (hread : (Encode.program q).sorted.ReadsBack) {digest : String}
    (hdone : ∀ s' bytes, decode area bytes = .ok q.sorted →
      S.view s' = (S.view s).store area digest bytes → act.Yields s' done failed ∧ failed s')
    (hfailed : ∀ s', S.view s' = S.view s → failed s') :
    Run.Yields (do ctx.backend.save area digest (← encode q); act) s done failed := by
  refine Run.Yields.bind (Run.yields_lift (fun bytes hbytes => ?_) (hfailed s rfl))
  have hdecode := decode_encode hq hread hbytes area
  refine Run.Yields.bind ((S.save area digest bytes s).mono ?_ ?_)
  · intro _ s' h
    exact (hdone s' bytes hdecode h).1
  · rintro s' (h | h)
    · exact hfailed s' h
    · exact (hdone s' bytes hdecode h).2

variable (S) in
/-- The stripped program of the contents, up to the order of attributes. -/
def Setting.Right (c : ByteArray) (q : Program) : Prop :=
  ∃ p, S.program c = .ok p ∧ (q = p.strip ∨ q = p.strip.sorted)

theorem Setting.documented (h : S.program c = .ok p) : p.Documented := by
  obtain ⟨j, -, hj⟩ := bind_eq_ok.1 h
  exact Decode.documented_of_program hj

theorem Setting.keep_yields (hlegible : S.Legible C) (hc : c ∈ C) (hq : S.Right c q)
    (h : S.Outcome C c v (S.view s)) :
    Run.Yields (do
        ctx.backend.save knowledgeArea (keyOf ctx knowledgeArea c) (← encode q)
        return q) s
      (fun q s' => S.Outcome C c v (S.view s') ∧
        (S.view s').entry knowledgeArea (keyOf ctx knowledgeArea c) ≠ none ∧ S.Right c q)
      fun s' => S.Outcome C c v (S.view s') := by
  obtain ⟨p, hp, hqp⟩ := hq
  have hdocumented : p.strip.Documented := ⟨(documented hp).arch, (documented hp).symbols⟩
  have hread := (hlegible c hc p hp).2
  -- the program was lifted or read back, and is the same once it is sorted
  have hsorted : q.sorted = p.strip.sorted ∧ q.Documented ∧
      (Encode.program q).sorted.ReadsBack := by
    obtain rfl | rfl := hqp
    · exact ⟨rfl, hdocumented, hread⟩
    · refine ⟨p.strip.sorted_sorted, ?_, ?_⟩
      · exact Decode.documented_of_program (Decode.program_encode Json.rewrites_sorted hdocumented)
      · rwa [Encode.sorted_program]
  obtain ⟨hsort, hdoc, hback⟩ := hsorted
  refine S.save_yields hdoc hback (fun s' bytes hdecode hview => ?_) fun s' hview => ?_
  · have hout : S.Outcome C c v (S.view s') := by
      rw [hview]
      exact h.store hc hp (.knowledge p) (hsort ▸ hdecode)
    refine ⟨Run.yields_pure ⟨hout, ?_, p, hp, hqp⟩, hout⟩
    rw [hview, View.store_self]
    exact Option.some_ne_none bytes
  · rwa [hview]

/-- **One call** for contents on a correct cache. -/
theorem Setting.readProgram_yields (hdigest : Set.InjOn ctx.digest (digested ctx C))
    (hlegible : S.Legible C) (hc : c ∈ C) (hcorrect : S.Correct C (S.view s))
    (hfile : (S.view s).file name = some c) :
    (readProgram ctx name).Yields s
      (fun q s' => S.Outcome C c (S.view s) (S.view s') ∧
        (S.view s').entry knowledgeArea (keyOf ctx knowledgeArea c) ≠ none ∧ S.Right c q)
      fun s' => S.Outcome C c (S.view s) (S.view s') := by
  have hsame : ∀ s', S.view s' = S.view s → S.Outcome C c (S.view s) (S.view s') := by
    intro s' h
    rw [h]
    exact ⟨hcorrect, fun _ _ hne => hne, .inl rfl⟩
  refine Run.Yields.bind ((S.subject_yields hfile).mono ?_ hsame)
  rintro _ s1 ⟨rfl, h1⟩
  refine Run.Yields.bind ((S.load _ _ s1).mono ?_ fun s' h => hsame s' (h.trans h1))
  rintro r s2 ⟨hr, h2⟩
  rw [h1] at hr h2
  -- an entry under the key of these contents was made for them
  have hread : ∀ {area bytes}, (S.view s).entry area (keyOf ctx area c) = some bytes →
      ∃ p q, S.program c = .ok p ∧ Kept area p q ∧ decode area bytes = .ok q := by
    intro area bytes hentry
    obtain ⟨c', hc', hkey, p, q, hp, hkept, hdecode⟩ := hcorrect _ _ _ hentry
    rw [eq_of_keyOf hdigest hkept.mem_areas hc hc' hkey]
    exact ⟨p, q, hp, hkept, hdecode⟩
  rcases r with _ | bytes
  · refine Run.Yields.bind ((S.load _ _ s2).mono ?_ fun s' h => hsame s' (h.trans h2))
    rintro r s3 ⟨hr', h3⟩
    rw [h2] at hr' h3
    rcases r with _ | bytes
    · -- neither area has an entry
      have hlift : ∀ s', S.view s' = (S.view s3).lift c →
          S.Outcome C c (S.view s) (S.view s') := by
        intro s' h
        rw [h, h3]
        exact ⟨hcorrect, fun _ _ hne => hne, .inr ⟨rfl, hr.symm, hr'.symm⟩⟩
      refine Run.Yields.bind ((S.lifted_yields (h3 ▸ hfile)).mono ?_ hlift)
      rintro p s4 ⟨hp, h4⟩
      refine S.save_yields (documented hp) (hlegible c hc p hp).1 (fun s5 bytes hdecode h5 => ?_)
        fun s' h => hlift s' (h.trans h4)
      have hout : S.Outcome C c (S.view s) (S.view s5) := by
        rw [h5]
        exact (hlift s4 h4).store hc hp (.project p) hdecode
      exact ⟨S.keep_yields hlegible hc ⟨p, hp, .inl rfl⟩ hout, hout⟩
    · obtain ⟨p, _, hp, hkept, hdecode⟩ := hread hr'.symm
      obtain rfl := hkept.eq_sorted
      refine Run.Yields.bind (Run.yields_lift (fun q hq => ?_) (hsame s3 h3))
      obtain rfl := Except.ok.inj (hdecode.symm.trans hq)
      refine S.keep_yields hlegible hc ⟨p, hp, .inr p.strip_sorted⟩ (hsame s3 h3)
  · obtain ⟨p, _, hp, hkept, hdecode⟩ := hread hr.symm
    obtain rfl := hkept.eq_strip_sorted
    refine Run.yields_lift (fun q hq => ?_) (hsame s2 h2)
    obtain rfl := Except.ok.inj (hdecode.symm.trans hq)
    refine ⟨hsame s2 h2, ?_, p, hp, .inr rfl⟩
    rw [h2, keyOf, ← hr]
    exact Option.some_ne_none bytes

/-- A file that is not there fails, and nothing changes. -/
theorem Setting.readProgram_yields_missing (hfile : (S.view s).file name = none) :
    (readProgram ctx name).Yields s (fun _ _ => False) fun s' => S.view s' = S.view s := by
  refine Run.Yields.bind (Run.Yields.bind (Run.Yields.bind ((S.contents name s).mono ?_ ?_)))
  · rintro c s' ⟨hc, -⟩
    exact absurd (hfile.symm.trans hc) (Option.some_ne_none c).symm
  · exact fun _ h => h

end Call

/-! ## §5 Sequences of calls -/

section Sequence

variable {σ : Type} {ctx : Context σ} (S : Setting ctx)

/-- A call of `readProgram`. -/
structure Call (σ : Type) where
  file : String
  before : σ
  result : Except Fault Program
  after : σ

/-- The contents of the file of a call, when it is made. -/
def Setting.contentsOf (call : Call σ) : Option ByteArray :=
  (S.view call.before).file call.file

/-- Calls that are made one after the other, the last first, from an empty cache.  Between calls
files change in any way, and the cache does not. -/
inductive Setting.History : List (Call σ) → σ → Prop where
  | start {s : σ} (h : ∀ area digest, (S.view s).entry area digest = none) : History [] s
  | edit {calls : List (Call σ)} {s s' : σ} (h : History calls s)
      (hentry : (S.view s').entry = (S.view s).entry) : History calls s'
  | call {calls : List (Call σ)} {s s' : σ} {file : String} {result : Except Fault Program}
      (h : History calls s) (hcall : Id.run ((readProgram ctx file).run.run s) = (result, s')) :
      History (⟨file, s, result, s'⟩ :: calls) s'

/-- A call does what it does without a cache, except that it does not lift what is there. -/
structure Setting.Transparent (C : Set ByteArray) (call : Call σ) : Prop where
  right : ∀ q, call.result = .ok q → ∃ c, S.contentsOf call = some c ∧ S.Right c q
  lifts : (S.view call.after).lifts = (S.view call.before).lifts ∨
    ∃ c, S.contentsOf call = some c ∧ (S.view call.after).lifts = c :: (S.view call.before).lifts ∧
      (S.view call.before).entry knowledgeArea (keyOf ctx knowledgeArea c) = none ∧
      (S.view call.before).entry projectArea (keyOf ctx projectArea c) = none
  correct : S.Correct C (S.view call.after)

variable {S} {C : Set ByteArray} {s s' : σ} {calls : List (Call σ)}

/-- A returning call leaves an entry of its contents. -/
def Setting.Remembers (S : Setting ctx) (call : Call σ) (v : View) : Prop :=
  ∀ q c, call.result = .ok q → S.contentsOf call = some c →
    v.entry knowledgeArea (keyOf ctx knowledgeArea c) ≠ none

/-- **One call** of any file. -/
theorem Setting.transparent_call {call : Call σ} (hdigest : Set.InjOn ctx.digest (digested ctx C))
    (hlegible : S.Legible C) (hc : ∀ c, S.contentsOf call = some c → c ∈ C)
    (hcorrect : S.Correct C (S.view call.before))
    (hcall : Id.run ((readProgram ctx call.file).run.run call.before) = (call.result, call.after)) :
    S.Transparent C call ∧ S.Remembers call (S.view call.after) ∧
      ∀ area digest, (S.view call.before).entry area digest ≠ none →
        (S.view call.after).entry area digest ≠ none := by
  obtain ⟨file, s, result, s'⟩ := call
  -- without contents nothing is read, and nothing changes
  cases hfile : (S.view s).file file with
  | none =>
    have hyields := S.readProgram_yields_missing hfile
    rw [Run.Yields, hcall] at hyields
    rcases result with f | q
    · replace hyields : S.view s' = S.view s := hyields
      have hlifts : (S.view s').lifts = (S.view s).lifts := by rw [hyields]
      have hkeep : S.Correct C (S.view s') := by rwa [hyields]
      refine ⟨⟨nofun, .inl hlifts, hkeep⟩, nofun, ?_⟩
      intro area digest hne
      rwa [hyields]
    · exact hyields.elim
  | some c =>
    have hyields := S.readProgram_yields hdigest hlegible (hc c hfile) hcorrect hfile
    rw [Run.Yields, hcall] at hyields
    rcases result with f | q
    · obtain ⟨hkeep, hkeeps, hlifts⟩ := hyields
      exact ⟨⟨nofun, hlifts.imp id fun h => ⟨c, hfile, h⟩, hkeep⟩,
        nofun, hkeeps⟩
    · obtain ⟨⟨hkeep, hkeeps, hlifts⟩, hentry, hright⟩ := hyields
      refine ⟨⟨fun q' h => ⟨c, hfile, ?_⟩, hlifts.imp id fun h => ⟨c, hfile, h⟩, hkeep⟩, ?_, hkeeps⟩
      · obtain rfl := Except.ok.inj h
        exact hright
      · intro _ c' _ hc'
        obtain rfl := Option.some.inj (hfile.symm.trans hc')
        exact hentry

/-- A call that finds an entry does not lift. -/
theorem Setting.Transparent.lifts_eq {call call' : Call σ} (h : S.Transparent C call)
    (hmem : S.Remembers call' (S.view call.before)) (hq : call'.result = .ok q)
    (hcontents : S.contentsOf call = S.contentsOf call') :
    (S.view call.after).lifts = (S.view call.before).lifts := by
  obtain hlifts | ⟨c, hc, -, hnone, -⟩ := h.lifts
  · exact hlifts
  · exact absurd hnone (hmem q c hq (hcontents.symm.trans hc))

/-- **Runs**: every call of a history is made on a correct cache, which has what was read before. -/
theorem Setting.History.invariant (hdigest : Set.InjOn ctx.digest (digested ctx C))
    (hlegible : S.Legible C) (h : S.History calls s)
    (hc : ∀ call ∈ calls, ∀ c, S.contentsOf call = some c → c ∈ C) :
    S.Correct C (S.view s) ∧
      (∀ call ∈ calls, S.Transparent C call ∧ S.Remembers call (S.view s)) ∧
      calls.Pairwise fun later earlier => ∀ q, earlier.result = .ok q →
        S.contentsOf later = S.contentsOf earlier →
        (S.view later.after).lifts = (S.view later.before).lifts := by
  -- an edit of files leaves the entries alone, and a call keeps them right
  induction h with
  | start h =>
    refine ⟨fun area digest bytes hentry => ?_, nofun, .nil⟩
    cases (h area digest).symm.trans hentry
  | edit h hentry ih =>
    obtain ⟨hcorrect, hall, hpair⟩ := ih hc
    refine ⟨?_, fun call hmem => ⟨(hall call hmem).1, ?_⟩, hpair⟩
    · rwa [Setting.Correct, hentry]
    · rw [Setting.Remembers, hentry]
      exact (hall call hmem).2
  | @call calls s s' file result h hcall ih =>
    obtain ⟨hcorrect, hall, hpair⟩ := ih fun call hmem => hc call (List.mem_cons_of_mem _ hmem)
    obtain ⟨hcall, hmem, hkeeps⟩ := S.transparent_call hdigest hlegible
      (hc _ (List.mem_cons_self ..)) hcorrect hcall
    refine ⟨hcall.correct, ?_, List.pairwise_cons.2 ⟨?_, hpair⟩⟩
    · intro call hin
      obtain rfl | hin := List.mem_cons.1 hin
      · exact ⟨hcall, hmem⟩
      · exact ⟨(hall call hin).1, fun q c hq hc => hkeeps _ _ ((hall call hin).2 q c hq hc)⟩
    · intro call hin q hq hcontents
      exact hcall.lifts_eq (hall call hin).2 hq hcontents

def Setting.seen (S : Setting ctx) (calls : List (Call σ)) : Set ByteArray :=
  {c | ∃ call ∈ calls, S.contentsOf call = some c}

/-- **The cache is not seen**: in any sequence of calls, whichever of them fail, a call that returns
gives the stripped program of the contents that the file has by then; contents are lifted only if
neither area has an entry for them, and never after a call for the same contents returned; and every
entry is correct after every call. -/
theorem transparent (hdigest : Set.InjOn ctx.digest (digested ctx (S.seen calls)))
    (hlegible : S.Legible (S.seen calls)) (h : S.History calls s) :
    (∀ call ∈ calls, S.Transparent (S.seen calls) call) ∧
      calls.Pairwise fun later earlier => ∀ q, earlier.result = .ok q →
        S.contentsOf later = S.contentsOf earlier →
        (S.view later.after).lifts = (S.view later.before).lifts := by
  obtain ⟨-, hall, hpair⟩ := h.invariant hdigest hlegible fun call hin c hc => ⟨call, hin, hc⟩
  exact ⟨fun call hin => (hall call hin).1, hpair⟩

end Sequence

/-! ## §6 A shelf -/

/-- A store with one file; saving may fail, and an empty file is not a program. -/
structure Shelf where
  entries : List ((String × String) × ByteArray) := []
  file : ByteArray
  full : Bool := false
  lifts : List ByteArray := []

namespace Shelf

def document (c : ByteArray) : Except Fault Json :=
  .ok (if c.toList = [] then .null else
    .obj [("arch", .str "i386"), ("subs", .arr [.obj [("name", .str "f"),
      ("attrs", .obj [("size", .int 2), ("address", .int 4)])]])])

def routine : Program where
  arch := .x86
  subs := [{ name := .str "f", attrs := [("size", .int 2), ("address", .int 4)] }]

def context : Context Shelf where
  backend :=
    { load := fun area digest => do return (← get).entries.lookup (area, digest)
      save := fun area digest bytes => do
        if (← get).full then throw .notText
        else modify fun s => { s with entries := ((area, digest), bytes) :: s.entries } }
  loader := "lifter"
  lift := fun _ => do
    modify fun s => { s with lifts := s.file :: s.lifts }
    document (← get).file
  contents := fun _ => do return (← get).file
  digest := fun bytes => String.ofList (bytes.map Char.ofUInt8)
  configuration := "v1"

def setting : Setting context where
  view s := ⟨fun area digest => s.entries.lookup (area, digest), fun _ => some s.file, s.lifts⟩
  document := document
  load area digest s := ⟨rfl, rfl⟩
  save area digest bytes s := by
    obtain ⟨entries, file, full, lifts⟩ := s
    cases full with
    | true => exact .inl rfl
    | false =>
      have hstore : ∀ a d, (((area, digest), bytes) :: entries).lookup (a, d) =
          if a = area ∧ d = digest then some bytes else entries.lookup (a, d) := by
        intro a d
        by_cases h : a = area ∧ d = digest
        · simp [h]
        · rw [if_neg h, List.lookup_cons, beq_eq_false_iff_ne.2 (by simpa using h)]
      exact congrArg (fun entry => View.mk entry (fun _ => some file) lifts) (funext₂ hstore)
  contents name s := ⟨rfl, rfl⟩
  lift name c s h := by
    obtain rfl := Option.some.inj h
    exact ⟨rfl, rfl⟩

theorem digest_injective : Function.Injective context.digest := by
  intro a b h
  have hchar : Function.Injective Char.ofUInt8 :=
    fun _ _ hxy => UInt8.toUInt32_inj.1 (congrArg Char.val hxy)
  exact List.map_injective_iff.2 hchar (String.ofList_injective h)

theorem legible (C : Set ByteArray) : setting.Legible C := by
  intro c _ p hp
  have hp' : p = routine := by
    simp only [Setting.program, setting, document] at hp
    split at hp
    · cases hp
    · exact (Except.ok.inj hp).symm
  rw [hp']
  exact ⟨Json.readsBack_of_same (by decide +kernel), Json.readsBack_of_same (by decide +kernel)⟩

/-- A call, and what becomes of it. -/
def reading (s : Shelf) : Call Shelf where
  file := "f"
  before := s
  result := (Id.run ((readProgram context "f").run.run s)).1
  after := (Id.run ((readProgram context "f").run.run s)).2

/-- A file is read, then it is emptied, and then it is as before, but nothing can be saved. -/
def readings : List (Call Shelf) :=
  let first := reading { file := ⟨#[1]⟩ }
  let second := reading { first.after with file := ⟨#[]⟩ }
  let third := reading { second.after with file := ⟨#[1]⟩, full := true }
  [third, second, first]

theorem history_readings : ∃ s, setting.History readings s :=
  ⟨_, .call (.edit (.call (.edit (.call (.start fun _ _ => rfl) rfl) rfl) rfl) rfl) rfl⟩

/-- Two of three calls return, and only the first contents and the empty file are lifted. -/
theorem transparent_readings :
    Set.InjOn context.digest (digested context (setting.seen readings)) ∧
      setting.Legible (setting.seen readings) ∧ (∃ s, setting.History readings s) ∧
      readings.map (fun call => (call.result.isOk, call.after.lifts.length)) =
        [(true, 2), (false, 2), (true, 1)] ∧
      (∀ call ∈ readings, setting.Transparent (setting.seen readings) call) ∧
        readings.Pairwise fun later earlier => ∀ q, earlier.result = .ok q →
          setting.contentsOf later = setting.contentsOf earlier →
          (setting.view later.after).lifts = (setting.view later.before).lifts := by
  obtain ⟨s, h⟩ := history_readings
  exact ⟨digest_injective.injOn, legible _, ⟨s, h⟩, by decide +kernel,
    transparent digest_injective.injOn (legible _) h⟩

end Shelf

end Cache

end Antecedent
