import Mathlib.Data.UInt

/-!
# SH4 opcode table

`opcode_list` pairs each instruction pattern with the interpreter function that executes it and
with the function that translates it for the recompiler. Functions are named here by
constructors; what they do is modelled elsewhere, for the interpreter functions of translated
instructions and for the translators. The functions of instructions that are never translated
stay names.
-/
namespace Sh4

open List

/-- Interpreter functions (`sh4_inst_…`) of the instructions that have a translator. -/
inductive NativeFn
  | rts | clrt | nop | rte | sett | unaryMovtGen | unaryCmppzGen | unaryCmpplGen | unaryDtGen
  | unaryShalGen | unarySharGen | unaryShllGen | unaryShlrGen | unaryShll2Gen | unaryShlr2Gen
  | unaryShll8Gen | unaryShlr8Gen | unaryShll16Gen | unaryShlr16Gen | unaryBrafGen
  | unaryBsrfGen | binaryAndImmR0 | binaryOrImmR0 | binaryTstImmR0 | binaryXorImmR0
  | unaryBfDisp | unaryBfsDisp | unaryBtDisp | unaryBtsDisp | unaryBraDisp | unaryBsrDisp
  | unaryOcbiIndgen | unaryOcbpIndgen | unaryOcbwbIndgen | unaryJmpIndgen | unaryJsrIndgen
  | binaryMovImmGen | binaryAddImmGen | binaryMovwBinindDispPcGen | binaryMovlBinindDispPcGen
  | binaryMovGenGen | binarySwapwGenGen | binaryAddGenGen | binaryCmpeqGenGen
  | binaryCmphsGenGen | binaryCmpgeGenGen | binaryCmphiGenGen | binaryCmpgtGenGen
  | binaryMuluwGenGen | binarySubGenGen | binaryAndGenGen | binaryNotGenGen | binaryOrGenGen
  | binaryTstGenGen | binaryXorGenGen | binaryShadGenGen | binaryStsMaclGen
  | binaryLdslIndgenincPr | binaryMovlGenIndgen | binaryMovlIndgenGen | binaryMovlGenInddecgen
  | binaryMovlIndgenincGen | binaryMovlBinindDispGenGen | binaryMovlBinindDispGbrR0
  | binaryMovaBinindDispPcR0
deriving DecidableEq

/-- Interpreter functions of the instructions that fall back to the interpreter. -/
inductive FallbackFn
  | clrmac | clrs | ldtlb | sets | sleep | frchg | fschg | unaryRotlGen | unaryRotrGen
  | unaryRotclGen | unaryRotcrGen | binaryCmpeqImmR0 | binaryAndbImmR0Gbr | binaryOrbImmR0Gbr
  | binaryTstbImmR0Gbr | binaryXorbImmR0Gbr | unaryTrapaDisp | unaryTasbGen | unaryPrefIndgen
  | binaryLdcGenSr | binaryLdcGenGbr | binaryLdcGenVbr | binaryLdcGenSsr | binaryLdcGenSpc
  | binaryLdcGenDbr | binaryStcSrGen | binaryStcGbrGen | binaryStcVbrGen | binaryStcSsrGen
  | binaryStcSpcGen | binaryStcSgrGen | binaryStcDbrGen | binaryLdclIndgenincSr
  | binaryLdclIndgenincGbr | binaryLdclIndgenincVbr | binaryLdclIndgenicSsr
  | binaryLdclIndgenincSpc | binaryLdclIndgenincDbr | binaryStclSrInddecgen
  | binaryStclGbrInddecgen | binaryStclVbrInddecgen | binaryStclSsrInddecgen
  | binaryStclSpcInddecgen | binaryStclSgrInddecgen | binaryStclDbrInddecgen
  | binarySwapbGenGen | binaryXtrctGenGen | binaryAddcGenGen | binaryAddvGenGen
  | binaryCmpstrGenGen | binaryDiv1GenGen | binaryDiv0sGenGen | noargDiv0u | binaryDmulslGenGen
  | binaryDmululGenGen | binaryExtsbGenGen | binaryExtswGenGen | binaryExtubGenGen
  | binaryExtuwGenGen | binaryMullGenGen | binaryMulswGenGen | binaryNegGenGen
  | binaryNegcGenGen | binarySubcGenGen | binarySubvGenGen | binaryShldGenGen
  | binaryLdcGenBank | binaryLdclIndgenincBank | binaryStcBankGen | binaryStclBankInddecgen
  | binaryLdsGenMach | binaryLdsGenMacl | binaryStsMachGen | binaryLdsGenPr | binaryStsPrGen
  | binaryLdslIndgenincMach | binaryLdslIndgenincMacl | binaryStslMachInddecgen
  | binaryStslMaclInddecgen | binaryStslPrInddecgen | binaryMovbGenIndgen | binaryMovwGenIndgen
  | binaryMovbIndgenGen | binaryMovwIndgenGen | binaryMovbGenInddecgen | binaryMovwGenInddecgen
  | binaryMovbIndgenincGen | binaryMovwIndgenincGen | binaryMaclIndgenincIndgeninc
  | binaryMacwIndgenincIndgeninc | binaryMovbR0BinindDispGen | binaryMovwR0BinindDispGen
  | binaryMovlGenBinindDispGen | binaryMovbBinindDispGenR0 | binaryMovwBinindDispGenR0
  | binaryMovbGenBinindR0Gen | binaryMovwGenBinindR0Gen | binaryMovlGenBinindR0Gen
  | binaryMovbBinindR0GenGen | binaryMovwBinindR0GenGen | binaryMovlBinindR0GenGen
  | binaryMovbR0BinindDispGbr | binaryMovwR0BinindDispGbr | binaryMovlR0BinindDispGbr
  | binaryMovbBinindDispGbrR0 | binaryMovwBinindDispGbrR0 | binaryMovcalR0Indgen | fpuFldi0
  | fpuFldi1 | fpuFmovGen | fpuFmovsIndGen | fpuFmovBinindR0GenFpu | fpuFmovIndgenincFpu
  | fpuFmovFpuIndgen | fpuFmovFpuInddecgen | fpuFmovFpuBinindR0Gen | binaryFldsFrFpul
  | binaryFstsFpulFr | fpuFabsFpu | fpuFaddFpu | fpuFcmpeqFpu | fpuFcmpgtFpu | fpuFdivFpu
  | fpuFloatFpu | fpuFmacFpu | fpuFmulFpu | fpuFnegFpu | fpuFsqrtFpu | fpuFsubFpu | fpuFtrcFpu
  | fpuFcnvdsFpu | fpuFcnvsdFpu | binaryLdsGenFpscr | binaryGenFpul | binaryLdslIndgenincFpscr
  | binaryLdslIndgenincFpul | binaryStsFpscrGen | binaryStsFpulGen | binaryStslFpscrInddecgen
  | binaryStslFpulInddecgen | binaryFiprFvFv | binaryFitrvMxtrxFv | fpuFscaFpu | fpuFsrraFpu
  | invalid
deriving DecidableEq

inductive OpFunc
  | native (fn : NativeFn)
  | fallback (fn : FallbackFn)
deriving DecidableEq

/-- Translators (`sh4_jit_…`) that let the block go on. -/
inductive Plain
  | clrt | nop | sett | movt | cmppzRn | cmpplRn | dtRn | shalRn | sharRn | shllRn | shlrRn
  | shll2Rn | shlr2Rn | shll8Rn | shlr8Rn | shll16Rn | shlr16Rn | binaryAndbImmR0 | orImm8R0
  | tstImm8R0 | xorImm8R0 | ocbiArn | ocbpArn | ocbwbArn | movImm8Rn | addImmRn | movwADispPcRn
  | movlADispPcRn | movRmRn | swapwRmRn | addRmRn | cmpeqRmRn | cmphsRmRn | cmpgeRmRn
  | cmphiRmRn | cmpgtRmRn | muluwRmRn | subRmRn | andRmRn | notRmRn | orRmRn | tstRmRn
  | xorRmRn | shadRmRn | stsMaclRn | ldslArmpPr | movlRmArn | movlArmRn | movlRmAmrn
  | movlArmpRn | movlADisp4RmRn | movlADisp8GbrR0 | movaADispPcR0
deriving DecidableEq

/-- Translators that end the block. -/
inductive Branch
  | rts | rte | brafRn | bsrfRn | bf | bfs | bt | bts | bra | bsr | jmpArn | jsrArn
deriving DecidableEq

inductive Disas
  | fallback
  | plain (t : Plain)
  | branch (b : Branch)
deriving DecidableEq

inductive Group
  | mt | ex | br | ls | fe | co | none
deriving DecidableEq

structure InstOpcode where
  func : OpFunc
  disas : Disas
  pcRelative : Bool
  group : Group
  issue : Nat
  mask : UInt16
  val : UInt16

def opcodeList : List InstOpcode :=
  [branch .rts .rts .co 2 0xffff 0x000b,
   fallback .clrmac .co 1 0xffff 0x0028,
   fallback .clrs .co 1 0xffff 0x0048,
   plain .clrt .clrt .mt 1 0xffff 0x0008,
   fallback .ldtlb .co 1 0xffff 0x0038,
   plain .nop .nop .mt 1 0xffff 0x0009,
   branch .rte .rte .co 5 0xffff 0x002b,
   fallback .sets .co 1 0xffff 0x0058,
   plain .sett .sett .mt 1 0xffff 0x0018,
   fallback .sleep .co 4 0xffff 0x001b,
   fallback .frchg .fe 1 0xffff 0xfbfd,
   fallback .fschg .fe 1 0xffff 0xf3fd,
   plain .unaryMovtGen .movt .ex 1 0xf0ff 0x0029,
   plain .unaryCmppzGen .cmppzRn .mt 1 0xf0ff 0x4011,
   plain .unaryCmpplGen .cmpplRn .mt 1 0xf0ff 0x4015,
   plain .unaryDtGen .dtRn .ex 1 0xf0ff 0x4010,
   fallback .unaryRotlGen .ex 1 0xf0ff 0x4004,
   fallback .unaryRotrGen .ex 1 0xf0ff 0x4005,
   fallback .unaryRotclGen .ex 1 0xf0ff 0x4024,
   fallback .unaryRotcrGen .ex 1 0xf0ff 0x4025,
   plain .unaryShalGen .shalRn .ex 1 0xf0ff 0x4020,
   plain .unarySharGen .sharRn .ex 1 0xf0ff 0x4021,
   plain .unaryShllGen .shllRn .ex 1 0xf0ff 0x4000,
   plain .unaryShlrGen .shlrRn .ex 1 0xf0ff 0x4001,
   plain .unaryShll2Gen .shll2Rn .ex 1 0xf0ff 0x4008,
   plain .unaryShlr2Gen .shlr2Rn .ex 1 0xf0ff 0x4009,
   plain .unaryShll8Gen .shll8Rn .ex 1 0xf0ff 0x4018,
   plain .unaryShlr8Gen .shlr8Rn .ex 1 0xf0ff 0x4019,
   plain .unaryShll16Gen .shll16Rn .ex 1 0xf0ff 0x4028,
   plain .unaryShlr16Gen .shlr16Rn .ex 1 0xf0ff 0x4029,
   branch .unaryBrafGen .brafRn .co 2 0xf0ff 0x0023,
   branch .unaryBsrfGen .bsrfRn .co 2 0xf0ff 0x0003,
   fallback .binaryCmpeqImmR0 .mt 1 0xff00 0x8800,
   fallback .binaryAndbImmR0Gbr .co 4 0xff00 0xcd00,
   plain .binaryAndImmR0 .binaryAndbImmR0 .ex 1 0xff00 0xc900,
   fallback .binaryOrbImmR0Gbr .co 4 0xff00 0xcf00,
   plain .binaryOrImmR0 .orImm8R0 .ex 1 0xff00 0xcb00,
   plain .binaryTstImmR0 .tstImm8R0 .mt 1 0xff00 0xc800,
   fallback .binaryTstbImmR0Gbr .co 3 0xff00 0xcc00,
   plain .binaryXorImmR0 .xorImm8R0 .ex 1 0xff00 0xca00,
   fallback .binaryXorbImmR0Gbr .co 4 0xff00 0xce00,
   branch .unaryBfDisp .bf .br 1 0xff00 0x8b00,
   branch .unaryBfsDisp .bfs .br 1 0xff00 0x8f00,
   branch .unaryBtDisp .bt .br 1 0xff00 0x8900,
   branch .unaryBtsDisp .bts .br 1 0xff00 0x8d00,
   branch .unaryBraDisp .bra .br 1 0xf000 0xa000,
   branch .unaryBsrDisp .bsr .br 1 0xf000 0xb000,
   fallback .unaryTrapaDisp .co 7 0xff00 0xc300,
   fallback .unaryTasbGen .co 5 0xf0ff 0x401b,
   plain .unaryOcbiIndgen .ocbiArn .ls 1 0xf0ff 0x0093,
   plain .unaryOcbpIndgen .ocbpArn .ls 1 0xf0ff 0x00a3,
   plain .unaryOcbwbIndgen .ocbwbArn .ls 1 0xf0ff 0x00b3,
   fallback .unaryPrefIndgen .ls 1 0xf0ff 0x0083,
   branch .unaryJmpIndgen .jmpArn .co 2 0xf0ff 0x402b,
   branch .unaryJsrIndgen .jsrArn .co 2 0xf0ff 0x400b,
   fallback .binaryLdcGenSr .co 4 0xf0ff 0x400e,
   fallback .binaryLdcGenGbr .co 3 0xf0ff 0x401e,
   fallback .binaryLdcGenVbr .co 1 0xf0ff 0x402e,
   fallback .binaryLdcGenSsr .co 1 0xf0ff 0x403e,
   fallback .binaryLdcGenSpc .co 1 0xf0ff 0x404e,
   fallback .binaryLdcGenDbr .co 1 0xf0ff 0x40fa,
   fallback .binaryStcSrGen .co 2 0xf0ff 0x0002,
   fallback .binaryStcGbrGen .co 2 0xf0ff 0x0012,
   fallback .binaryStcVbrGen .co 2 0xf0ff 0x0022,
   fallback .binaryStcSsrGen .co 2 0xf0ff 0x0032,
   fallback .binaryStcSpcGen .co 2 0xf0ff 0x0042,
   fallback .binaryStcSgrGen .co 3 0xf0ff 0x003a,
   fallback .binaryStcDbrGen .co 2 0xf0ff 0x00fa,
   fallback .binaryLdclIndgenincSr .co 4 0xf0ff 0x4007,
   fallback .binaryLdclIndgenincGbr .co 3 0xf0ff 0x4017,
   fallback .binaryLdclIndgenincVbr .co 1 0xf0ff 0x4027,
   fallback .binaryLdclIndgenicSsr .co 1 0xf0ff 0x4037,
   fallback .binaryLdclIndgenincSpc .co 1 0xf0ff 0x4047,
   fallback .binaryLdclIndgenincDbr .co 1 0xf0ff 0x40f6,
   fallback .binaryStclSrInddecgen .co 2 0xf0ff 0x4003,
   fallback .binaryStclGbrInddecgen .co 2 0xf0ff 0x4013,
   fallback .binaryStclVbrInddecgen .co 2 0xf0ff 0x4023,
   fallback .binaryStclSsrInddecgen .co 2 0xf0ff 0x4033,
   fallback .binaryStclSpcInddecgen .co 2 0xf0ff 0x4043,
   fallback .binaryStclSgrInddecgen .co 3 0xf0ff 0x4032,
   fallback .binaryStclDbrInddecgen .co 2 0xf0ff 0x40f2,
   plain .binaryMovImmGen .movImm8Rn .ex 1 0xf000 0xe000,
   plain .binaryAddImmGen .addImmRn .ex 1 0xf000 0x7000,
   ⟨.native .binaryMovwBinindDispPcGen, .plain .movwADispPcRn, true, .ls, 1, 0xf000, 0x9000⟩,
   ⟨.native .binaryMovlBinindDispPcGen, .plain .movlADispPcRn, true, .ls, 1, 0xf000, 0xd000⟩,
   plain .binaryMovGenGen .movRmRn .mt 1 0xf00f 0x6003,
   fallback .binarySwapbGenGen .ex 1 0xf00f 0x6008,
   plain .binarySwapwGenGen .swapwRmRn .ex 1 0xf00f 0x6009,
   fallback .binaryXtrctGenGen .ex 1 0xf00f 0x200d,
   plain .binaryAddGenGen .addRmRn .ex 1 0xf00f 0x300c,
   fallback .binaryAddcGenGen .ex 1 0xf00f 0x300e,
   fallback .binaryAddvGenGen .ex 1 0xf00f 0x300f,
   plain .binaryCmpeqGenGen .cmpeqRmRn .mt 1 0xf00f 0x3000,
   plain .binaryCmphsGenGen .cmphsRmRn .mt 1 0xf00f 0x3002,
   plain .binaryCmpgeGenGen .cmpgeRmRn .mt 1 0xf00f 0x3003,
   plain .binaryCmphiGenGen .cmphiRmRn .mt 1 0xf00f 0x3006,
   plain .binaryCmpgtGenGen .cmpgtRmRn .mt 1 0xf00f 0x3007,
   fallback .binaryCmpstrGenGen .mt 1 0xf00f 0x200c,
   fallback .binaryDiv1GenGen .ex 1 0xf00f 0x3004,
   fallback .binaryDiv0sGenGen .ex 1 0xf00f 0x2007,
   fallback .noargDiv0u .ex 1 0xffff 0x0019,
   fallback .binaryDmulslGenGen .co 2 0xf00f 0x300d,
   fallback .binaryDmululGenGen .co 2 0xf00f 0x3005,
   fallback .binaryExtsbGenGen .ex 1 0xf00f 0x600e,
   fallback .binaryExtswGenGen .ex 1 0xf00f 0x600f,
   fallback .binaryExtubGenGen .ex 1 0xf00f 0x600c,
   fallback .binaryExtuwGenGen .ex 1 0xf00f 0x600d,
   fallback .binaryMullGenGen .co 2 0xf00f 0x0007,
   fallback .binaryMulswGenGen .co 2 0xf00f 0x200f,
   plain .binaryMuluwGenGen .muluwRmRn .co 2 0xf00f 0x200e,
   fallback .binaryNegGenGen .ex 1 0xf00f 0x600b,
   fallback .binaryNegcGenGen .ex 1 0xf00f 0x600a,
   plain .binarySubGenGen .subRmRn .ex 1 0xf00f 0x3008,
   fallback .binarySubcGenGen .ex 1 0xf00f 0x300a,
   fallback .binarySubvGenGen .ex 1 0xf00f 0x300b,
   plain .binaryAndGenGen .andRmRn .ex 1 0xf00f 0x2009,
   plain .binaryNotGenGen .notRmRn .ex 1 0xf00f 0x6007,
   plain .binaryOrGenGen .orRmRn .ex 1 0xf00f 0x200b,
   plain .binaryTstGenGen .tstRmRn .mt 1 0xf00f 0x2008,
   plain .binaryXorGenGen .xorRmRn .ex 1 0xf00f 0x200a,
   plain .binaryShadGenGen .shadRmRn .ex 1 0xf00f 0x400c,
   fallback .binaryShldGenGen .ex 1 0xf00f 0x400d,
   fallback .binaryLdcGenBank .co 1 0xf08f 0x408e,
   fallback .binaryLdclIndgenincBank .co 1 0xf08f 0x4087,
   fallback .binaryStcBankGen .co 2 0xf08f 0x0082,
   fallback .binaryStclBankInddecgen .co 2 0xf08f 0x4083,
   fallback .binaryLdsGenMach .co 1 0xf0ff 0x400a,
   fallback .binaryLdsGenMacl .co 1 0xf0ff 0x401a,
   fallback .binaryStsMachGen .co 1 0xf0ff 0x000a,
   plain .binaryStsMaclGen .stsMaclRn .co 1 0xf0ff 0x001a,
   fallback .binaryLdsGenPr .co 2 0xf0ff 0x402a,
   fallback .binaryStsPrGen .co 2 0xf0ff 0x002a,
   fallback .binaryLdslIndgenincMach .co 1 0xf0ff 0x4006,
   fallback .binaryLdslIndgenincMacl .co 1 0xf0ff 0x4016,
   fallback .binaryStslMachInddecgen .co 1 0xf0ff 0x4002,
   fallback .binaryStslMaclInddecgen .co 1 0xf0ff 0x4012,
   plain .binaryLdslIndgenincPr .ldslArmpPr .co 2 0xf0ff 0x4026,
   fallback .binaryStslPrInddecgen .co 2 0xf0ff 0x4022,
   fallback .binaryMovbGenIndgen .ls 1 0xf00f 0x2000,
   fallback .binaryMovwGenIndgen .ls 1 0xf00f 0x2001,
   plain .binaryMovlGenIndgen .movlRmArn .ls 1 0xf00f 0x2002,
   fallback .binaryMovbIndgenGen .ls 1 0xf00f 0x6000,
   fallback .binaryMovwIndgenGen .ls 1 0xf00f 0x6001,
   plain .binaryMovlIndgenGen .movlArmRn .ls 1 0xf00f 0x6002,
   fallback .binaryMovbGenInddecgen .ls 1 0xf00f 0x2004,
   fallback .binaryMovwGenInddecgen .ls 1 0xf00f 0x2005,
   plain .binaryMovlGenInddecgen .movlRmAmrn .ls 1 0xf00f 0x2006,
   fallback .binaryMovbIndgenincGen .ls 1 0xf00f 0x6004,
   fallback .binaryMovwIndgenincGen .ls 1 0xf00f 0x6005,
   plain .binaryMovlIndgenincGen .movlArmpRn .ls 1 0xf00f 0x6006,
   fallback .binaryMaclIndgenincIndgeninc .co 2 0xf00f 0x000f,
   fallback .binaryMacwIndgenincIndgeninc .co 2 0xf00f 0x400f,
   fallback .binaryMovbR0BinindDispGen .ls 1 0xff00 0x8000,
   fallback .binaryMovwR0BinindDispGen .ls 1 0xff00 0x8100,
   fallback .binaryMovlGenBinindDispGen .ls 1 0xf000 0x1000,
   fallback .binaryMovbBinindDispGenR0 .ls 1 0xff00 0x8400,
   fallback .binaryMovwBinindDispGenR0 .ls 1 0xff00 0x8500,
   plain .binaryMovlBinindDispGenGen .movlADisp4RmRn .ls 1 0xf000 0x5000,
   fallback .binaryMovbGenBinindR0Gen .ls 1 0xf00f 0x0004,
   fallback .binaryMovwGenBinindR0Gen .ls 1 0xf00f 0x0005,
   fallback .binaryMovlGenBinindR0Gen .ls 1 0xf00f 0x0006,
   fallback .binaryMovbBinindR0GenGen .ls 1 0xf00f 0x000c,
   fallback .binaryMovwBinindR0GenGen .ls 1 0xf00f 0x000d,
   fallback .binaryMovlBinindR0GenGen .ls 1 0xf00f 0x000e,
   fallback .binaryMovbR0BinindDispGbr .ls 1 0xff00 0xc000,
   fallback .binaryMovwR0BinindDispGbr .ls 1 0xff00 0xc100,
   fallback .binaryMovlR0BinindDispGbr .ls 1 0xff00 0xc200,
   fallback .binaryMovbBinindDispGbrR0 .ls 1 0xff00 0xc400,
   fallback .binaryMovwBinindDispGbrR0 .ls 1 0xff00 0xc500,
   plain .binaryMovlBinindDispGbrR0 .movlADisp8GbrR0 .ls 1 0xff00 0xc600,
   ⟨.native .binaryMovaBinindDispPcR0, .plain .movaADispPcR0, true, .ex, 1, 0xff00, 0xc700⟩,
   fallback .binaryMovcalR0Indgen .ls 1 0xf0ff 0x00c3,
   fallback .fpuFldi0 .ls 1 0xf0ff 0xf08d,
   fallback .fpuFldi1 .ls 1 0xf0ff 0xf09d,
   fallback .fpuFmovGen .ls 1 0xf00f 0xf00c,
   fallback .fpuFmovsIndGen .ls 1 0xf00f 0xf008,
   fallback .fpuFmovBinindR0GenFpu .ls 1 0xf00f 0xf006,
   fallback .fpuFmovIndgenincFpu .ls 1 0xf00f 0xf009,
   fallback .fpuFmovFpuIndgen .ls 1 0xf00f 0xf00a,
   fallback .fpuFmovFpuInddecgen .ls 1 0xf00f 0xf00b,
   fallback .fpuFmovFpuBinindR0Gen .ls 1 0xf00f 0xf007,
   fallback .binaryFldsFrFpul .ls 1 0xf0ff 0xf01d,
   fallback .binaryFstsFpulFr .ls 1 0xf0ff 0xf00d,
   fallback .fpuFabsFpu .ls 1 0xf0ff 0xf05d,
   fallback .fpuFaddFpu .fe 1 0xf00f 0xf000,
   fallback .fpuFcmpeqFpu .fe 1 0xf00f 0xf004,
   fallback .fpuFcmpgtFpu .fe 1 0xf00f 0xf005,
   fallback .fpuFdivFpu .fe 1 0xf00f 0xf003,
   fallback .fpuFloatFpu .fe 1 0xf0ff 0xf02d,
   fallback .fpuFmacFpu .fe 1 0xf00f 0xf00e,
   fallback .fpuFmulFpu .fe 1 0xf00f 0xf002,
   fallback .fpuFnegFpu .ls 1 0xf0ff 0xf04d,
   fallback .fpuFsqrtFpu .fe 1 0xf0ff 0xf06d,
   fallback .fpuFsubFpu .fe 1 0xf00f 0xf001,
   fallback .fpuFtrcFpu .fe 1 0xf0ff 0xf03d,
   fallback .fpuFcnvdsFpu .fe 1 0xf1ff 0xf0bd,
   fallback .fpuFcnvsdFpu .fe 1 0xf1ff 0xf0ad,
   fallback .binaryLdsGenFpscr .co 1 0xf0ff 0x406a,
   fallback .binaryGenFpul .ls 1 0xf0ff 0x405a,
   fallback .binaryLdslIndgenincFpscr .co 1 0xf0ff 0x4066,
   fallback .binaryLdslIndgenincFpul .co 1 0xf0ff 0x4056,
   fallback .binaryStsFpscrGen .co 1 0xf0ff 0x006a,
   fallback .binaryStsFpulGen .ls 1 0xf0ff 0x005a,
   fallback .binaryStslFpscrInddecgen .co 1 0xf0ff 0x4062,
   fallback .binaryStslFpulInddecgen .co 1 0xf0ff 0x4052,
   fallback .binaryFiprFvFv .fe 1 0xf0ff 0xf0ed,
   fallback .binaryFitrvMxtrxFv .fe 1 0xf3ff 0xf1fd,
   fallback .fpuFscaFpu .fe 1 0xf1ff 0xf0fd,
   fallback .fpuFsrraFpu .fe 1 0xf0ff 0xf07d]
where
  /-- A row with `sh4_jit_fallback`. -/
  fallback (fn : FallbackFn) (group : Group) (issue : Nat) (mask val : UInt16) : InstOpcode :=
    ⟨.fallback fn, .fallback, false, group, issue, mask, val⟩
  plain (fn : NativeFn) (t : Plain) (group : Group) (issue : Nat) (mask val : UInt16) :
      InstOpcode :=
    ⟨.native fn, .plain t, false, group, issue, mask, val⟩
  branch (fn : NativeFn) (b : Branch) (group : Group) (issue : Nat) (mask val : UInt16) :
      InstOpcode :=
    ⟨.native fn, .branch b, true, group, issue, mask, val⟩

def invalidOpcode : InstOpcode := ⟨.fallback .invalid, .fallback, false, .mt, 0, 0, 0⟩

def sh4DecodeInst (inst : UInt16) : InstOpcode :=
  (opcodeList.find? fun op => op.mask &&& inst = op.val).getD invalidOpcode

theorem sh4DecodeInst_of_pattern {inst : UInt16} (op : InstOpcode) (fits : op.mask &&& inst = op.val)
    (first : (opcodeList.find? fun op' => op'.mask &&& op.val = op'.val &&& op.mask) = some op) :
    sh4DecodeInst inst = op := by
  have hfind : ∀ ops : List InstOpcode,
      (ops.find? fun op' => op'.mask &&& op.val = op'.val &&& op.mask) = some op →
        (ops.find? fun op' => op'.mask &&& inst = op'.val) = some op := by
    intro ops hops
    induction ops with
    | nil => cases hops
    | cons op' ops ih =>
      by_cases hop : op'.mask &&& inst = op'.val
      · have hval : op'.mask &&& op.val = op'.val &&& op.mask := by
          rw [← fits, ← hop, UInt16.and_comm op.mask, UInt16.and_assoc]
        rw [find?_cons_of_pos (by simpa using hval)] at hops
        rw [find?_cons_of_pos (by simpa using hop), hops]
      · rw [find?_cons_of_neg (by simpa using hop)]
        by_cases hval : op'.mask &&& op.val = op'.val &&& op.mask
        · rw [find?_cons_of_pos (by simpa using hval), Option.some_inj] at hops
          subst hops
          exact absurd fits hop
        · rw [find?_cons_of_neg (by simpa using hval)] at hops
          exact ih hops
  rw [sh4DecodeInst, hfind _ first, Option.getD_some]

/-- The number of cycles an instruction costs and the group remembered for the next one. -/
def sh4CountInstCycles (op : InstOpcode) (lastInstType : Group) : Nat × Group :=
  if lastInstType = .none ∨ op.group = .co ∨ lastInstType = .co ∨
      lastInstType = op.group ∧ op.group ≠ .mt then (op.issue, op.group)
  else (0, .none)

/-! ## Translators and interpreter functions agree -/

def Plain.func : Plain → NativeFn
  | .clrt => .clrt
  | .nop => .nop
  | .sett => .sett
  | .movt => .unaryMovtGen
  | .cmppzRn => .unaryCmppzGen
  | .cmpplRn => .unaryCmpplGen
  | .dtRn => .unaryDtGen
  | .shalRn => .unaryShalGen
  | .sharRn => .unarySharGen
  | .shllRn => .unaryShllGen
  | .shlrRn => .unaryShlrGen
  | .shll2Rn => .unaryShll2Gen
  | .shlr2Rn => .unaryShlr2Gen
  | .shll8Rn => .unaryShll8Gen
  | .shlr8Rn => .unaryShlr8Gen
  | .shll16Rn => .unaryShll16Gen
  | .shlr16Rn => .unaryShlr16Gen
  | .binaryAndbImmR0 => .binaryAndImmR0
  | .orImm8R0 => .binaryOrImmR0
  | .tstImm8R0 => .binaryTstImmR0
  | .xorImm8R0 => .binaryXorImmR0
  | .ocbiArn => .unaryOcbiIndgen
  | .ocbpArn => .unaryOcbpIndgen
  | .ocbwbArn => .unaryOcbwbIndgen
  | .movImm8Rn => .binaryMovImmGen
  | .addImmRn => .binaryAddImmGen
  | .movwADispPcRn => .binaryMovwBinindDispPcGen
  | .movlADispPcRn => .binaryMovlBinindDispPcGen
  | .movRmRn => .binaryMovGenGen
  | .swapwRmRn => .binarySwapwGenGen
  | .addRmRn => .binaryAddGenGen
  | .cmpeqRmRn => .binaryCmpeqGenGen
  | .cmphsRmRn => .binaryCmphsGenGen
  | .cmpgeRmRn => .binaryCmpgeGenGen
  | .cmphiRmRn => .binaryCmphiGenGen
  | .cmpgtRmRn => .binaryCmpgtGenGen
  | .muluwRmRn => .binaryMuluwGenGen
  | .subRmRn => .binarySubGenGen
  | .andRmRn => .binaryAndGenGen
  | .notRmRn => .binaryNotGenGen
  | .orRmRn => .binaryOrGenGen
  | .tstRmRn => .binaryTstGenGen
  | .xorRmRn => .binaryXorGenGen
  | .shadRmRn => .binaryShadGenGen
  | .stsMaclRn => .binaryStsMaclGen
  | .ldslArmpPr => .binaryLdslIndgenincPr
  | .movlRmArn => .binaryMovlGenIndgen
  | .movlArmRn => .binaryMovlIndgenGen
  | .movlRmAmrn => .binaryMovlGenInddecgen
  | .movlArmpRn => .binaryMovlIndgenincGen
  | .movlADisp4RmRn => .binaryMovlBinindDispGenGen
  | .movlADisp8GbrR0 => .binaryMovlBinindDispGbrR0
  | .movaADispPcR0 => .binaryMovaBinindDispPcR0

def Branch.func : Branch → NativeFn
  | .rts => .rts
  | .rte => .rte
  | .brafRn => .unaryBrafGen
  | .bsrfRn => .unaryBsrfGen
  | .bf => .unaryBfDisp
  | .bfs => .unaryBfsDisp
  | .bt => .unaryBtDisp
  | .bts => .unaryBtsDisp
  | .bra => .unaryBraDisp
  | .bsr => .unaryBsrDisp
  | .jmpArn => .unaryJmpIndgen
  | .jsrArn => .unaryJsrIndgen

/-- The translated instructions that compute with the address they are at. -/
def Plain.pcRelative : Plain → Bool
  | .movwADispPcRn | .movlADispPcRn | .movaADispPcR0 => true
  | _ => false

def InstOpcode.paired (op : InstOpcode) : Bool :=
  match op.disas, op.func with
  | .fallback, .fallback _ => !op.pcRelative
  | .plain t, .native fn => fn = t.func && op.pcRelative == t.pcRelative
  | .branch b, .native fn => fn = b.func && op.pcRelative
  | _, _ => false

theorem opcodeList_paired : ∀ op ∈ opcodeList, op.paired = true :=
  all_eq_true.mp (by decide +kernel)

theorem sh4DecodeInst_paired (inst : UInt16) : (sh4DecodeInst inst).paired = true := by
  unfold sh4DecodeInst
  cases hfind : opcodeList.find? fun op => op.mask &&& inst = op.val with
  | none => rfl
  | some op => exact opcodeList_paired op (mem_of_find?_eq_some hfind)

theorem sh4DecodeInst_halves (inst : UInt16) :
    let op := sh4DecodeInst inst
    match op.disas with
    | .fallback => (∃ fn, op.func = .fallback fn) ∧ op.pcRelative = false
    | .plain t => op.func = .native t.func ∧ op.pcRelative = t.pcRelative
    | .branch b => op.func = .native b.func ∧ op.pcRelative = true := by
  have hpair := sh4DecodeInst_paired inst
  rw [InstOpcode.paired] at hpair
  cases hd : (sh4DecodeInst inst).disas <;> cases hfn : (sh4DecodeInst inst).func <;> simp_all

deriving instance DecidableEq for InstOpcode

theorem opcodeList_first : ∀ op ∈ opcodeList,
    (opcodeList.find? fun op' => op'.mask &&& op.val = op'.val &&& op.mask) = some op := by
  decide +kernel

/-- No instruction fits two rows, so that the order of the rows does not matter. -/
theorem sh4DecodeInst_eq_iff (inst : UInt16) (op : InstOpcode) :
    sh4DecodeInst inst = op ↔ op ∈ opcodeList ∧ op.mask &&& inst = op.val ∨
      op = invalidOpcode ∧ ∀ row ∈ opcodeList, row.mask &&& inst ≠ row.val := by
  constructor
  · rintro rfl
    unfold sh4DecodeInst
    cases hfind : opcodeList.find? fun op => op.mask &&& inst = op.val with
    | none => exact .inr ⟨rfl, by simpa using hfind⟩
    | some row =>
      exact .inl ⟨mem_of_find?_eq_some hfind, by simpa using find?_some hfind⟩
  · rintro (⟨hmem, hfits⟩ | ⟨rfl, hnone⟩)
    · exact sh4DecodeInst_of_pattern op hfits (opcodeList_first op hmem)
    · rw [sh4DecodeInst, find?_eq_none.mpr (by simpa using hnone), Option.getD_none]

end Sh4
