import Verifyhash.Library.Pratt
import Verifyhash.VerifierRs.Field

-- The moduli are prime.
namespace FieldArith

def certificate : List Pratt.Entry := [
  ⟨115792089237316195423570985008687907852837564279074904382605163141518161494337, 7, [
    2, 2, 2, 2, 2, 2, 3, 149, 631, 107361793816595537, 174723607534414371449, 341948486974166000522343609283189]⟩,
  ⟨341948486974166000522343609283189, 2, [2, 2, 3, 3, 3, 109, 29047611873442575647497758179]⟩,
  ⟨29047611873442575647497758179, 2, [2, 293, 305873, 545358713, 297159362677]⟩,
  ⟨297159362677, 2, [2, 2, 3, 3, 11, 461, 1627771]⟩,
  ⟨1627771, 3, [2, 3, 5, 29, 1871]⟩,
  ⟨1871, 14, [2, 5, 11, 17]⟩,
  ⟨461, 2, [2, 2, 5, 23]⟩,
  ⟨545358713, 5, [2, 2, 2, 41, 59, 28181]⟩,
  ⟨28181, 2, [2, 2, 5, 1409]⟩,
  ⟨1409, 3, [2, 2, 2, 2, 2, 2, 2, 11]⟩,
  ⟨305873, 3, [2, 2, 2, 2, 7, 2731]⟩,
  ⟨2731, 3, [2, 3, 5, 7, 13]⟩,
  ⟨293, 2, [2, 2, 73]⟩,
  ⟨73, 5, [2, 2, 2, 3, 3]⟩,
  ⟨109, 6, [2, 2, 3, 3, 3]⟩,
  ⟨174723607534414371449, 3, [2, 2, 2, 17, 59, 4051, 120233, 44706919]⟩,
  ⟨44706919, 6, [2, 3, 797, 9349]⟩,
  ⟨9349, 2, [2, 2, 3, 19, 41]⟩,
  ⟨797, 2, [2, 2, 199]⟩,
  ⟨199, 3, [2, 3, 3, 11]⟩,
  ⟨120233, 3, [2, 2, 2, 7, 19, 113]⟩,
  ⟨113, 3, [2, 2, 2, 2, 7]⟩,
  ⟨4051, 10, [2, 3, 3, 3, 3, 5, 5]⟩,
  ⟨59, 2, [2, 29]⟩,
  ⟨107361793816595537, 3, [2, 2, 2, 2, 16699, 85831, 4681609]⟩,
  ⟨4681609, 23, [2, 2, 2, 3, 97, 2011]⟩,
  ⟨2011, 3, [2, 3, 5, 67]⟩,
  ⟨85831, 3, [2, 3, 5, 2861]⟩,
  ⟨2861, 2, [2, 2, 5, 11, 13]⟩,
  ⟨16699, 3, [2, 3, 11, 11, 23]⟩,
  ⟨23, 5, [2, 11]⟩,
  ⟨631, 3, [2, 3, 3, 5, 7]⟩,
  ⟨149, 2, [2, 2, 37]⟩,
  ⟨37, 2, [2, 2, 3, 3]⟩,
  ⟨115792089237316195423570985008687907853269984665640564039457584007908834671663, 3, [
    2, 3, 7, 13441, 205115282021455665897114700593932402728804164701536103180137503955397371]⟩,
  ⟨205115282021455665897114700593932402728804164701536103180137503955397371, 10, [
    2, 3, 5, 29, 29, 31, 7723, 132896956044521568488119, 255515944373312847190720520512484175977]⟩,
  ⟨255515944373312847190720520512484175977, 3, [
    2, 2, 2, 7, 7, 11, 1627, 2657, 4423, 41201, 96557, 7240687, 107590001]⟩,
  ⟨107590001, 3, [2, 2, 2, 2, 5, 5, 5, 5, 7, 29, 53]⟩,
  ⟨53, 2, [2, 2, 13]⟩,
  ⟨7240687, 3, [2, 3, 1206781]⟩,
  ⟨1206781, 10, [2, 2, 3, 5, 20113]⟩,
  ⟨20113, 10, [2, 2, 2, 2, 3, 419]⟩,
  ⟨419, 2, [2, 11, 19]⟩,
  ⟨19, 2, [2, 3, 3]⟩,
  ⟨96557, 2, [2, 2, 101, 239]⟩,
  ⟨239, 7, [2, 7, 17]⟩,
  ⟨101, 2, [2, 2, 5, 5]⟩,
  ⟨41201, 3, [2, 2, 2, 2, 5, 5, 103]⟩,
  ⟨103, 5, [2, 3, 17]⟩,
  ⟨4423, 3, [2, 3, 11, 67]⟩,
  ⟨67, 2, [2, 3, 11]⟩,
  ⟨2657, 3, [2, 2, 2, 2, 2, 83]⟩,
  ⟨83, 2, [2, 41]⟩,
  ⟨41, 6, [2, 2, 2, 5]⟩,
  ⟨1627, 3, [2, 3, 271]⟩,
  ⟨271, 6, [2, 3, 3, 3, 5]⟩,
  ⟨132896956044521568488119, 6, [2, 3, 22149492674086928081353]⟩,
  ⟨22149492674086928081353, 5, [2, 2, 2, 3, 5323, 173378833005251801]⟩,
  ⟨173378833005251801, 6, [2, 2, 2, 5, 5, 2621, 24809, 13331831]⟩,
  ⟨13331831, 13, [2, 5, 971, 1373]⟩,
  ⟨1373, 2, [2, 2, 7, 7, 7]⟩,
  ⟨971, 6, [2, 5, 97]⟩,
  ⟨97, 5, [2, 2, 2, 2, 2, 3]⟩,
  ⟨24809, 6, [2, 2, 2, 7, 443]⟩,
  ⟨2621, 2, [2, 2, 5, 131]⟩,
  ⟨131, 2, [2, 5, 13]⟩,
  ⟨5323, 5, [2, 3, 887]⟩,
  ⟨887, 5, [2, 443]⟩,
  ⟨443, 2, [2, 13, 17]⟩,
  ⟨17, 3, [2, 2, 2, 2]⟩,
  ⟨7723, 3, [2, 3, 3, 3, 11, 13]⟩,
  ⟨13, 2, [2, 2, 3]⟩,
  ⟨11, 2, [2, 5]⟩,
  ⟨31, 3, [2, 3, 5]⟩,
  ⟨29, 2, [2, 2, 7]⟩,
  ⟨13441, 11, [2, 2, 2, 2, 2, 2, 2, 3, 5, 7]⟩,
  ⟨5, 2, [2, 2]⟩,
  ⟨7, 3, [2, 3]⟩,
  ⟨3, 2, [2]⟩,
  ⟨2, 1, []⟩
]

theorem prime_of_mem_certificate : ∀ e ∈ certificate, e.p.Prime :=
  Pratt.prime_of_certifies <| by decide +kernel

theorem prime_P : P.val.Prime := by
  have hv : ∃ e ∈ certificate, e.p = P.val := by decide
  obtain ⟨e, he, hp⟩ := hv
  exact hp ▸ prime_of_mem_certificate e he

theorem prime_N : N.val.Prime := by
  have hv : ∃ e ∈ certificate, e.p = N.val := by decide
  obtain ⟨e, he, hp⟩ := hv
  exact hp ▸ prime_of_mem_certificate e he

end FieldArith
