/-
# `TinyLlm.Forward.Restart` — going back to an earlier position

A caller may feed tokens from an earlier position on as if the later ones had
never been: every row that is read again was written before, and what lies
behind the position is written again before it is read.  So a runtime shows what
a fresh one would, whatever was in its buffers (`tqForward_history`).

That needs buffers that are apart: where a size of the cache wrapped, a later key
may have taken the place of an earlier value (`tqForward_history_wraps`).
-/
import TinyLlm.Forward.Wrapped

namespace TinyLlm

open Relational

/-- **History independence.**  Two runtimes of one model, set up alike over any
arenas and whatever is in their buffers and in their caches, show the same on
the same tokens.  Taken back to an earlier position, a runtime shows what the
other one does on the tokens kept and the new ones. -/
theorem tqForward_history {F : Type} (O : FloatOps F) (c : TqCodec F) {st : TqStore}
    {arena : TqArena} {t t' : TqTile} {m : TqModel}
    (hopen : (tqModelOpen st arena).exec t = (.ok m, t')) {maxSeq kvDtype : Int}
    {fast cache fast' cache' : TqArena} {rt rt' : TqRuntime}
    (hrt : SetUp m maxSeq kvDtype fast cache rt) (hrt' : SetUp m maxSeq kvDtype fast' cache' rt')
    (s : TqMachine (TqFlat c (tqLayout fast cache rt)))
    (s' : TqMachine (TqFlat c (tqLayout fast' cache' rt'))) :
    (∀ tokens, logitsSeen m.vocabSize (tqFeed O st m rt (callsFrom 0 tokens) s) =
      logitsSeen m.vocabSize (tqFeed O st m rt' (callsFrom 0 tokens) s')) ∧
    ∀ tokens k restart, k ≤ tokens.length →
      (∀ r ∈ tqFeed O st m rt (callsFrom 0 tokens) s, r.1 = .ok ()) →
      logitsSeen m.vocabSize (tqFeed O st m rt' (callsFrom 0 (tokens.take k ++ restart)) s') =
        logitsSeen m.vocabSize (tqFeed O st m rt (callsFrom 0 (tokens.take k)) s) ++
        logitsSeen m.vocabSize (tqFeed O st m rt (callsFrom k restart)
          (machineAfter O st m rt (callsFrom 0 tokens) s)) := by
  have hm : m.Sized := tqModelOpen_sized hopen
  obtain ⟨hseq, hkv, -, -⟩ := tqRuntimeInit_ok hrt.init
  obtain ⟨hseq', hkv', -, -⟩ := tqRuntimeInit_ok hrt'.init
  have hsame := @tqFeed_runtime F O (TqMem F) _ st m rt rt' (hseq.trans hseq'.symm)
    (hkv.trans hkv'.symm)
  have hshows :
      ∀ calls {s : TqMachine (TqFlat c (tqLayout fast cache rt))} {t : TqMachine (TqMem F)},
      Shows m rt s t → logitsSeen m.vocabSize (tqFeed O st m rt calls s) =
        logitsSeen m.vocabSize (tqFeed O st m rt calls t) :=
    fun calls => logitsSeen_shows O st hm (hrt.lawful c) calls
  have hfresh : ∀ calls, logitsSeen m.vocabSize (tqFeed O st m rt' calls s') =
      logitsSeen m.vocabSize (tqFeed O st m rt calls s'.named) := by
    intro calls
    rw [logitsSeen_shows O st hm (hrt'.lawful c) calls (shows_named s'), hsame]
  obtain ⟨hruns, hback⟩ := logitsSeen_rewound O st rt hm s.named s'.named
  refine ⟨fun tokens => ?_, fun tokens k restart hk hok => ?_⟩
  · rw [hshows _ (shows_named s), hfresh]
    exact hruns tokens
  · obtain ⟨hok', hafter⟩ := machineAfter_shows O st hm (hrt.lawful c) _ (shows_named s) hok
    rw [hfresh, hback tokens k restart hk hok', hshows _ (shows_named s), hshows _ hafter]

/-- Two tokens with a byte cache, then the second one taken back, in exact arithmetic. -/
theorem tqForward_history_sample : ∃ rt, rt.kvDtype = .q8 ∧
    logitsSeen sampleModel.vocabSize (tqFeed ratOps sampleStore sampleModel rt (callsFrom 0 [1, 5])
        (TqMachine.flat ratOps (tqLayout sampleFast sampleCache rt))) =
      logitsSeen sampleModel.vocabSize (tqFeed ratOps sampleStore sampleModel rt (callsFrom 0 [1])
        (TqMachine.flat ratOps (tqLayout sampleFast sampleCache rt))) ++
      logitsSeen sampleModel.vocabSize (tqFeed ratOps sampleStore sampleModel rt (callsFrom 1 [5])
        (machineAfter ratOps sampleStore sampleModel rt (callsFrom 0 [1, 0])
          (TqMachine.flat ratOps (tqLayout sampleFast sampleCache rt)))) := by
  obtain ⟨rt, hrt, hseq, hkv⟩ := sampleModel_runtime true 3
  have hseq : rt.maxSeq = 4 := hseq
  have hserve := mapped_serves ratOps sampleImage_length (tqModelOpen_sized sampleModel_opens)
    sampleModel_inBounds
  refine ⟨rt, hkv, (tqForward_history ratOps (TqCodec.tags ratOps) sampleModel_opens hrt hrt _ _).2
    [1, 0] 1 [5] (by decide) fun r hr => ?_⟩
  rcases List.mem_cons.mp hr with rfl | hr
  · obtain ⟨_, s', hstep⟩ := hserve.returns rt 1 0 (by decide) (by omega)
      (TqMachine.flat ratOps (tqLayout sampleFast sampleCache rt))
    exact congrArg Prod.fst hstep
  · rw [List.mem_singleton.mp hr]
    obtain ⟨_, s', hstep⟩ :=
      hserve.returns (M := TqFlat (TqCodec.tags ratOps) (tqLayout sampleFast sampleCache rt))
      rt 0 1 (by decide) (by omega) _
    exact congrArg Prod.fst hstep

/-- **A cache that wrapped.**  `size_t` has 32 bits, the context 2^25 + 2
positions of 128 bytes, and `tq_runtime_init` takes an arena of 4096 bytes for
two times 2^32 + 256.  The key of position 2 is where the value of position 0
was: back at position 1 the logits are not those of a fresh runtime. -/
theorem tqForward_history_wraps : ∃ rt,
    (tqModelOpen wrapStore ⟨0x20001000, 1000, 2 ^ 32⟩).exec ⟨0, []⟩ = (.ok wrapModel, ⟨0, []⟩) ∧
    tqRuntimeInit wrapModel (2 ^ 25 + 2 : Nat) 0 wrapFast wrapCache = .ok rt ∧
    (wrapFast.InMemory ∧ wrapCache.InMemory) ∧ Apart wrapFast wrapCache ∧
    tqLayout wrapFast wrapCache rt (.f .kCache 64) = tqLayout wrapFast wrapCache rt (.f .vCache 0) ∧
    (∀ r ∈ tqFeed markOps wrapStore wrapModel rt (callsFrom 0 [0, 0, 0])
      (TqMachine.flat markOps (tqLayout wrapFast wrapCache rt)), r.1 = .ok ()) ∧
    logitsSeen wrapModel.vocabSize
      (tqFeed markOps wrapStore wrapModel rt (callsFrom 0 ([0, 0, 0].take 1 ++ [0]))
        (TqMachine.flat markOps (tqLayout wrapFast wrapCache rt))) ≠
      logitsSeen wrapModel.vocabSize
        (tqFeed markOps wrapStore wrapModel rt (callsFrom 0 ([0, 0, 0].take 1))
        (TqMachine.flat markOps (tqLayout wrapFast wrapCache rt))) ++
      logitsSeen wrapModel.vocabSize (tqFeed markOps wrapStore wrapModel rt (callsFrom 1 [0])
        (machineAfter markOps wrapStore wrapModel rt (callsFrom 0 [0, 0, 0])
          (TqMachine.flat markOps (tqLayout wrapFast wrapCache rt)))) := by
  obtain ⟨rt, h⟩ := wrapModel_init
  obtain ⟨hok, hdiffers⟩ := h.differs (TqMachine.flat markOps (tqLayout wrapFast wrapCache rt))
  exact ⟨rt, wrapModel_opens, h.init, wrap_inMemory, wrap_apart, h.meet, hok, hdiffers⟩

end TinyLlm
