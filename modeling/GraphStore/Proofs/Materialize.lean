import GraphStore.Proofs.Checking
import GraphStore.Proofs.Interning
import GraphStore.Proofs.Isolation

/-!
# Keys over time

* `Store.Later.remembers` : calls leave every interned value its id, so a key keeps its quad
  (`Contents.Remembers.keyOf?`);
* `Store.StandsFor` : at all later times a key is answered by one quad, or by its absence;
* `Store.Materializes` : every live key stands for its quad, and every live quad has one key;
* `Store.Reached.materializes` : so it is after every run; what a pass found stands for live quads of
  the contents it began on, whatever was written meanwhile;
* `Store.containsAcross` : whether a quad is live, asked while others write between the two reads;
* `Store.Reached.answersAcross` : the answer is right before these writes or after them.
-/

namespace GraphStore

variable {store : Store} {disk disk' : Disk} {c c' : Contents} {q : Quad} {key : QuadKey}

theorem Contents.Remembers.keyOf? (h : c.Remembers c') (hq : c.keyOf? q = some key) :
    c'.keyOf? q = some key :=
  keyOf?_mono h.ids hq

namespace Store

/-! ## Further calls -/

theorem AdmitsOne.roomFor (h : store.AdmitsOne disk .add q) (hvalid : q.isValid = true) :
    store.RoomFor disk q.values := fun c hview => (h hvalid c hview).2 rfl

theorem AdmitsAll.roomForAll {options : WriteOptions} {quads : List Quad}
    (h : store.AdmitsAll options disk quads) : store.RoomForAll options disk quads := by
  induction quads generalizing disk with
  | nil => trivial
  | cons q rest ih =>
    obtain ⟨hq, hrest⟩ := h
    exact ⟨hq.roomFor, fun outcome disk' hadd => ih (hrest outcome disk' hadd)⟩

theorem Admits.hasRoom {call : WriteCall} (h : store.Admits disk call) :
    store.HasRoom disk (.call call) := by
  cases call with
  | add options q => exact AdmitsOne.roomFor h
  | remove options q => trivial
  | addAll options quads => exact AdmitsAll.roomForAll h

theorem Later.transacted (h : store.Later disk disk') : store.Transacted disk disk' := by
  induction h with
  | now => exact .now
  | wrote call _ hadmits ih => exact .next (.call call) ih hadmits.hasRoom

/-- Further calls leave the contents sound, and every interned value its id. -/
theorem Later.remembers (h : store.Later disk disk') (hview : disk.view store.handle = .ok c)
    (hc : c.Sound) :
    ∃ c', disk'.view store.handle = .ok c' ∧ c'.Sound ∧ c.Remembers c' := by
  obtain ⟨c', hview', hc'⟩ := h.sound ⟨c, hview, hc⟩
  obtain ⟨c'', hview'', -, hremembers⟩ := h.transacted.keeps hview hc.naming
  obtain rfl := Except.ok.inj (hview'.symm.trans hview'')
  exact ⟨c', hview', hc', hremembers⟩

/-! ## Keys and quads -/

theorem keyOf?_eq (hview : disk.view store.handle = .ok c) (q : Quad) :
    store.keyOf? disk q = .ok (c.keyOf? q) := by
  unfold Store.keyOf?
  rw [hview]
  rfl

/-- The key of a quad is answered by that quad exactly as long as the quad is live. -/
theorem quad_of_keyOf? (hview : disk.view store.handle = .ok c) (hc : c.Sound)
    (hkey : c.keyOf? q = some key) :
    store.quad disk (.quad key) =
      if c.model.contains q then .ok q else .error (.notFound (.quad key)) := by
  split
  · next hlive =>
    obtain ⟨key', hkey', hlive'⟩ := hc.contains_model.1 hlive
    obtain rfl := Option.some.inj (hkey.symm.trans hkey')
    exact quad_eq hview hlive' (hc.naming.keyOf?_eq_some_iff.1 hkey)
  · next hdead =>
    have hdead' : ¬ c.isLive key = true := fun hlive =>
      hdead (hc.contains_model.2 ⟨key, hkey, hlive⟩)
    unfold Store.quad
    rw [hview]
    exact if_neg hdead'

/-- From now on a key is answered by a quad as long as that is live, and is not found otherwise. -/
def StandsFor (store : Store) (disk : Disk) (key : QuadKey) (q : Quad) : Prop :=
  ∀ disk', store.Later disk disk' → ∃ m, store.model disk' = .ok m ∧
    store.quad disk' (.quad key) =
      if m.contains q then .ok q else .error (.notFound (.quad key))

theorem standsFor (hview : disk.view store.handle = .ok c) (hc : c.Sound)
    (hkey : c.keyOf? q = some key) : store.StandsFor disk key q := by
  intro disk' hlater
  obtain ⟨c', hview', hc', hremembers⟩ := hlater.remembers hview hc
  exact ⟨c'.model, model_of_view hview', quad_of_keyOf? hview' hc' (hremembers.keyOf? hkey)⟩

theorem exists_quad (hc : c.Sound) (hlive : c.isLive key = true) :
    ∃ q, c.model.contains q = true ∧ c.keyOf? q = some key := by
  obtain ⟨q, -, hq⟩ := hc.named key (Contents.mem_liveKeys.2 hlive)
  have hkey := hc.naming.keyOf?_eq_some_iff.2 hq
  exact ⟨q, hc.contains_model.2 ⟨key, hkey, hlive⟩, hkey⟩

/-- What keys are answered by, now and after any further calls. -/
structure Materializes (store : Store) (disk : Disk) (c : Contents) : Prop where
  named : ∀ key, c.isLive key = true →
    ∃ q, c.model.contains q = true ∧ store.keyOf? disk q = .ok (some key)
  /-- The key of a quad stands for it. -/
  stands : ∀ q key, store.keyOf? disk q = .ok (some key) → store.StandsFor disk key q
  keyed : ∀ q, c.model.contains q = true →
    ∃ key, store.keyOf? disk q = .ok (some key) ∧ store.quad disk (.quad key) = .ok q
  distinct : ∀ q q' key, store.keyOf? disk q = .ok (some key) →
    store.keyOf? disk q' = .ok (some key) → q = q'
  /-- The quads that a pass of a tree with live results finds, whatever is written meanwhile, stand for
  quads that were live when it began. -/
  drained : ∀ tree : Query, tree.Built store.handle → tree.yieldsLive = true →
    ∀ found disk' tree', tree.InPass store disk found disk' tree' → ∀ key, .quad key ∈ found →
      ∃ q, c.model.contains q = true ∧ store.StandsFor disk key q

/-- After every run, keys are answered by their quads, then and after any further calls. -/
theorem Reached.materializes (h : store.Reached disk) :
    ∃ c, disk.view store.handle = .ok c ∧ store.Materializes disk c := by
  obtain ⟨c, hview, hc⟩ := h.sound
  have hkeyOf {q : Quad} {key : QuadKey} (hkey : store.keyOf? disk q = .ok (some key)) :
      c.keyOf? q = some key := Except.ok.inj ((keyOf?_eq hview q).symm.trans hkey)
  refine ⟨c, hview, fun key hlive => ?_, fun q key hkey => standsFor hview hc (hkeyOf hkey),
    fun q hlive => ?_, fun q q' key hkey hkey' => ?_,
    fun tree htree hyields found disk' tree' hin key hmem => ?_⟩
  · obtain ⟨q, hlive', hkey⟩ := exists_quad hc hlive
    exact ⟨q, hlive', by rw [keyOf?_eq hview, hkey]⟩
  · obtain ⟨key, hkey, -⟩ := hc.contains_model.1 hlive
    refine ⟨key, by rw [keyOf?_eq hview, hkey], ?_⟩
    rw [quad_of_keyOf? hview hc hkey, if_pos hlive]
  · have hq := hc.naming.keyOf?_eq_some_iff.1 (hkeyOf hkey)
    have hq' := hc.naming.keyOf?_eq_some_iff.1 (hkeyOf hkey')
    exact Option.some.inj (hq.symm.trans hq')
  · obtain ⟨results, hisolated⟩ := htree.fresh.isolated hc hview
    obtain ⟨missing, rfl, -⟩ := hisolated.steps found disk' tree' hin
    have hdenotes := (hisolated.denotes.2 _).1 (List.mem_append_left missing hmem)
    have hlive := Query.isLiveRef_of_member hyields ((Query.member_iff hc).2 hdenotes)
    obtain ⟨q, hlive', hkey⟩ := exists_quad hc hlive
    exact ⟨q, hlive', standsFor hview hc hkey⟩

theorem materializes_first_quad : ∃ (store : Store) (disk : Disk),
    Store.create {} "db" {} = .ok (store, disk) ∧
      let now := store.after disk (.add {} ⟨"alice", "follows", "bob", ""⟩)
      store.keyOf? now ⟨"alice", "follows", "bob", ""⟩ = .ok (some ⟨⟨1⟩, ⟨2⟩, ⟨3⟩, ⟨0⟩⟩) ∧
        ∃ c, now.view store.handle = .ok c ∧ store.Materializes now c := by
  have hcreate : Store.create {} "db" {} = .ok (_, _) := rfl
  refine ⟨_, _, hcreate, ?_⟩
  intro now
  have hreached : Store.Reached _ now := .wrote _ (.created hcreate) (admitsOne_created hcreate)
  exact ⟨by decide +kernel, hreached.materializes⟩

/-! ## Asking while others write -/

/-- Whether a quad is live, with the key read from one state of the disk and its liveness from a later
one. -/
def containsAcross (store : Store) (disk later : Disk) (q : Quad) : Except StoreError Bool := do
  store.isLiveLater later (← store.keyOf? disk q)

/-- With nothing written in between, that is the question itself. -/
theorem containsAcross_self (store : Store) (disk : Disk) (q : Quad) :
    store.containsAcross disk disk q = store.containsQuad disk q := rfl

theorem containsAcross_eq (hview : disk.view store.handle = .ok c)
    (hview' : disk'.view store.handle = .ok c') (q : Quad) :
    store.containsAcross disk disk' q = .ok ((c.keyOf? q).any c'.isLive) := by
  unfold containsAcross
  rw [keyOf?_eq hview]
  change store.isLiveLater disk' (c.keyOf? q) = _
  unfold isLiveLater
  rw [hview']
  cases c.keyOf? q <;> rfl

/-- What is answered about a quad, if the store stands for `m` when its key is read and for `m'` when
the liveness of that is. -/
structure AnswersAcross (store : Store) (disk later : Disk) (m m' : Model) (q : Quad)
    (live : Bool) : Prop where
  answer : store.containsAcross disk later q = .ok live
  /-- A live quad is missed only if it had no key at the first read. -/
  exact : live = true ↔ m'.contains q = true ∧ ∃ key, store.keyOf? disk q = .ok (some key)
  oneOf : live = m.contains q ∨ live = m'.contains q
  yes : live = true → m'.contains q = true
  no : live = false → m.contains q = false ∨ m'.contains q = false

/-- Whatever is written between its two reads, the question whether a quad is live gets an answer that
was right before these writes, or is right after them. -/
theorem Reached.answersAcross {later : Disk} (h : store.Reached disk)
    (hlater : store.Later disk later) (q : Quad) :
    ∃ m m' live, store.model disk = .ok m ∧ store.model later = .ok m' ∧
      store.AnswersAcross disk later m m' q live := by
  obtain ⟨c, hview, hc⟩ := h.sound
  obtain ⟨c', hview', hc', hremembers⟩ := hlater.remembers hview hc
  -- A key of the first state is the key of the same quad in the second.
  have hexact : (c.keyOf? q).any c'.isLive = true ↔
      c'.model.contains q = true ∧ ∃ key, store.keyOf? disk q = .ok (some key) := by
    rw [Option.any_eq_true, hc'.contains_model, keyOf?_eq hview]
    constructor
    · rintro ⟨key, hkey, hlive⟩
      exact ⟨⟨key, hremembers.keyOf? hkey, hlive⟩, key, by rw [hkey]⟩
    · rintro ⟨⟨key, hkey, hlive⟩, key', hkey'⟩
      have hkey' := Except.ok.inj hkey'
      rw [hremembers.keyOf? hkey'] at hkey
      exact ⟨key', hkey', Option.some.inj hkey ▸ hlive⟩
  have hyes (hlive : (c.keyOf? q).any c'.isLive = true) : c'.model.contains q = true :=
    (hexact.1 hlive).1
  -- A quad without a key is not live at the first read.
  have hno (hdead : (c.keyOf? q).any c'.isLive = false) :
      c.model.contains q = false ∨ c'.model.contains q = false := by
    by_contra hboth
    rw [not_or, Bool.not_eq_false, Bool.not_eq_false] at hboth
    obtain ⟨key, hkey, -⟩ := hc.contains_model.1 hboth.1
    rw [hexact.2 ⟨hboth.2, key, by rw [keyOf?_eq hview, hkey]⟩] at hdead
    cases hdead
  refine ⟨c.model, c'.model, _, model_of_view hview, model_of_view hview',
    containsAcross_eq hview hview' q, hexact, ?_, hyes, hno⟩
  cases hanswer : (c.keyOf? q).any c'.isLive with
  | true => exact .inr (hyes hanswer).symm
  | false => exact (hno hanswer).imp Eq.symm Eq.symm

/-- A quad that is removed between the two reads, and one that is added between them. -/
theorem answersAcross_first_quads : ∃ (store : Store) (disk : Disk),
    Store.create {} "db" {} = .ok (store, disk) ∧
      let alice : Quad := ⟨"alice", "follows", "bob", ""⟩
      let carol : Quad := ⟨"carol", "follows", "bob", ""⟩
      let first := store.after disk (.add {} alice)
      let later := store.after (store.after first (.remove {} alice)) (.add {} carol)
      (∃ m m', store.model first = .ok m ∧ store.model later = .ok m' ∧
        store.AnswersAcross first later m m' alice false) ∧
      ∃ m m', store.model first = .ok m ∧ store.model later = .ok m' ∧
        store.AnswersAcross first later m m' carol false := by
  have hcreate : Store.create {} "db" {} = .ok (_, _) := rfl
  refine ⟨_, _, hcreate, ?_⟩
  intro alice carol first later
  have hreached : Store.Reached _ first := .wrote _ (.created hcreate) (admitsOne_created hcreate)
  have hlater : Store.Later _ first later :=
    .wrote _ (.wrote _ .now (admitsOne_of_hasRoom (by decide +kernel)))
      (admitsOne_of_hasRoom (by decide +kernel))
  obtain ⟨m₁, m₁', alice', hfirst, hsecond, halice⟩ := hreached.answersAcross hlater alice
  obtain ⟨m₂, m₂', carol', hfirst', hsecond', hcarol⟩ := hreached.answersAcross hlater carol
  have halice' : alice' = false := Except.ok.inj (halice.answer.symm.trans (by decide +kernel))
  have hcarol' : carol' = false := Except.ok.inj (hcarol.answer.symm.trans (by decide +kernel))
  exact ⟨⟨m₁, m₁', hfirst, hsecond, halice' ▸ halice⟩, m₂, m₂', hfirst', hsecond',
    hcarol' ▸ hcarol⟩

end Store

end GraphStore
